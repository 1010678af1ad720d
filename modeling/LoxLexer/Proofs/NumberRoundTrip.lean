import LoxLexer.Proofs.ShortestNumeral

/-!
# Numbers written and scanned again

The text of a finite number that is not negative is a numeral: it has no sign, no exponent and no
point without digits on both sides.  So it is one segment, and the scan of it is the number again.
The text of the infinite number is a word.
-/

namespace LoxLexer

open Segment

theorem Segment.LegalBefore.cut_chars {segment : Segment} (hlegal : segment.LegalBefore []) :
    cut segment.chars = [segment] := by
  have hcut := cut_append_of_maximal hlegal (maximalBefore_nil segment)
  rwa [List.append_nil, cut_nil] at hcut

theorem scan_numeral {numeral : Numeral} (hwell : numeral.WellFormed) :
    let text := String.ofList numeral.chars
    (scan text).log.toList = [] ∧
    (scan text).tokens =
      [⟨.number, text, some (.number numeral.toBinary64), 1⟩, .endOfSource 1] := by
  intro text
  have htext : text.toList = numeral.chars := String.toList_ofList
  have hlegal : (Segment.number numeral).LegalBefore [] := hwell
  have hcut : cut text.toList = [.number numeral] := by
    rw [htext]
    exact hlegal.cut_chars
  have hnumber : IsNumber numeral.chars := isNumber_iff.mpr ⟨numeral, hwell, rfl⟩
  have hline : lastLine text.toList = 1 := by
    rw [lastLine, htext, List.count_eq_zero_of_not_mem (hnumber.notMem_of_isBlank rfl)]
  rw [faults_scan, tokens_scan, hcut, hline]
  exact ⟨rfl, rfl⟩

namespace Binary64

variable {x : Binary64}

theorem text_of_isFinite (hsign : x.isNegative = false) (hfinite : x.isFinite = true) :
    x.text = String.ofList (shortestNumeral x.magnitude).chars := by
  have hlow : x.magnitude < infinity := of_decide_eq_true hfinite
  have hnan : x.isNaN = false := decide_eq_false hlow.not_gt
  have hinfinite : x.isInfinite = false := decide_eq_false hlow.ne
  simp [text, hsign, hnan, hinfinite]

theorem text_of_isInfinite (hsign : x.isNegative = false) (hinfinite : x.isInfinite = true) :
    x.text = "inf" := by
  rw [eq_ofMagnitude hsign, of_decide_eq_true hinfinite]
  decide

end Binary64

/-- The text of a number is scanned without a fault, as one number of the same value that is written
as the same text again, and the end of the source. -/
structure RoundTrips (x : Binary64) : Prop where
  faultless : (scan (Literal.number x).text).log.toList = []
  single : ∃ (again : Token) (line : ℕ),
    (scan (Literal.number x).text).tokens = [again, .endOfSource line] ∧
    again.kind = .number ∧ again.literal = some (.number x) ∧
    again.literal.map Literal.text = some (Literal.number x).text

theorem roundTrips_of_isFinite {x : Binary64} (hsign : x.isNegative = false)
    (hfinite : x.isFinite = true) : RoundTrips x := by
  obtain ⟨hwell, hread, -⟩ := Binary64.shortestNumeral_spec (of_decide_eq_true hfinite)
  obtain ⟨hfaults, htokens⟩ := scan_numeral hwell
  rw [hread, ← Binary64.eq_ofMagnitude hsign] at htokens
  rw [← Binary64.text_of_isFinite hsign hfinite] at hfaults htokens
  exact ⟨hfaults, _, _, htokens, rfl, rfl, rfl⟩

theorem scan_inf :
    (scan "inf").log.toList = [] ∧
    (scan "inf").tokens = [⟨.identifier, "inf", none, 1⟩, .endOfSource 1] := by
  decide +kernel

/-- A number in a source is the same number after it has been written and scanned again, unless its
lexeme denotes so great a number that the literal is infinite; then a name is written. -/
theorem number_text_round_trip {source : String} {token : Token}
    (htoken : token ∈ (scan source).tokens) (hkind : token.kind = .number) :
    ∃ x : Binary64, token.literal = some (.number x) ∧
      (x.isFinite = true ↔ RoundTrips x) ∧
      (x.isFinite = true →
        Binary64.FewestDigits (Literal.number x).text.toList x) ∧
      (x.isFinite = false ↔ x.isInfinite = true) ∧
      (x.isInfinite = true ↔ 2 ^ 1024 - 2 ^ 970 ≤ exactValue token.lexeme.toList) ∧
      (x.isInfinite = true →
        (scan (Literal.number x).text).log.toList = [] ∧
        (scan (Literal.number x).text).tokens =
          [⟨.identifier, "inf", none, 1⟩, .endOfSource 1]) := by
  obtain ⟨numeral, hwell, hchars, hliteral⟩ :=
    (scanned_of_mem_tokens source token htoken).number_literal hkind
  have hrounded := Numeral.correctlyRounded_toBinary64 hwell
  rw [← hchars] at hrounded
  generalize numeral.toBinary64 = x at hliteral hrounded
  have hsign := hrounded.isNegative_eq
  have hfinite : x.isFinite = false ↔ x.isInfinite = true := by
    rw [hrounded.isInfinite_iff, ← not_lt, ← hrounded.isFinite_iff, Bool.not_eq_true]
  have hinf : x.isInfinite = true →
      (scan (Literal.number x).text).log.toList = [] ∧
      (scan (Literal.number x).text).tokens =
        [⟨.identifier, "inf", none, 1⟩, .endOfSource 1] := by
    intro hinfinite
    rw [Literal.text, Binary64.text_of_isInfinite hsign hinfinite]
    exact scan_inf
  refine ⟨x, hliteral, ⟨roundTrips_of_isFinite hsign, ?_⟩, ?_, hfinite, hrounded.isInfinite_iff,
    hinf⟩
  · intro htrips
    by_contra hinfinite
    obtain ⟨again, line, htokens, hnumber, -⟩ := htrips.single
    rw [(hinf (hfinite.mp (Bool.eq_false_iff.mpr hinfinite))).2] at htokens
    cases htokens
    cases hnumber
  · intro hsmall
    obtain ⟨-, -, hfewest⟩ := Binary64.shortestNumeral_spec (of_decide_eq_true hsmall)
    rw [← Binary64.eq_ofMagnitude hsign] at hfewest
    rwa [Literal.text, Binary64.text_of_isFinite hsign hsmall, String.toList_ofList]

/-- Zeros at the end of a lexeme are not written. -/
theorem number_text_round_trip_tenth :
    (Literal.number ⟨0x3FB999999999999A⟩).text = "0.1" ∧ RoundTrips ⟨0x3FB999999999999A⟩ := by
  have htoken : (⟨.number, "0.1000", some (.number ⟨0x3FB999999999999A⟩), 1⟩ : Token) ∈
      (scan "x = 0.1000;").tokens := by
    decide +kernel
  obtain ⟨x, hx, htrips, -⟩ := number_text_round_trip htoken rfl
  cases hx
  exact ⟨by decide +kernel, htrips.mp (by decide)⟩

end LoxLexer
