import LoxLexer.Segment
import Mathlib

/-!
# Maximal segments

The segment read at the beginning of a text is characterised by what can be seen at its two ends.
Its own text is legal for its class, and the text behind it begins with nothing that would continue
it.  A legal segment that can be continued is not the longest one, so the segment read is longest
among the legal ones.

`read_eq_iff` states the characterisation for one segment and `cut_eq_iff` for a whole source.  What
is proved about scanning rests on it, and not on the order in which reading tries the classes.
-/

namespace LoxLexer

theorem takeWhile_append_of_stop
    {p : Char → Bool} {text rest : List Char}
    (htext : ∀ c ∈ text, p c = true)
    (hrest : ∀ c ∈ rest.head?, p c = false) :
    (text ++ rest).takeWhile p = text := by
  rw [List.takeWhile_append_of_pos htext]
  cases rest with
  | nil => simp
  | cons c rest => simp [hrest c rfl]

theorem dropWhile_append_of_stop
    {p : Char → Bool} {text rest : List Char}
    (htext : ∀ c ∈ text, p c = true)
    (hrest : ∀ c ∈ rest.head?, p c = false) :
    (text ++ rest).dropWhile p = rest := by
  rw [List.dropWhile_append_of_pos htext]
  cases rest with
  | nil => rfl
  | cons c rest => simp [hrest c rfl]

theorem passes_of_notMem
    {stop : Char} {text : List Char} (htext : stop ∉ text) :
    ∀ c ∈ text, decide (c ≠ stop) = true :=
  fun _ hc => decide_eq_true (ne_of_mem_of_not_mem hc htext)

theorem stop_of_dropWhile
    (p : Char → Bool) (text : List Char) :
    ∀ c ∈ (text.dropWhile p).head?, p c = false := by
  intro c hc
  have hnot := List.head?_dropWhile_not p text
  rw [Option.mem_def.mp hc] at hnot
  simpa using hnot

theorem all_of_takeWhile
    (p : Char → Bool) (text : List Char) :
    ∀ c ∈ text.takeWhile p, p c = true :=
  List.all_eq_true.mp List.all_takeWhile

/-! ## Numerals -/

namespace Numeral

structure WellFormed (numeral : Numeral) : Prop where
  whole_ne_nil : numeral.whole ≠ []
  whole_digits : ∀ c ∈ numeral.whole, c.isDigit = true
  fraction_digits : ∀ c ∈ numeral.fraction, c.isDigit = true

/-- The text behind a numeral continues neither run of its digits, and does not begin with the
point and the first digit of a fraction that the numeral lacks. -/
structure MaximalBefore (rest : List Char) (numeral : Numeral) : Prop where
  stop : ∀ c ∈ rest.head?, c.isDigit = false
  noPoint : numeral.fraction = [] →
    ∀ c tail, rest = '.' :: c :: tail → c.isDigit = false

theorem read_chars_append
    {numeral : Numeral} {rest : List Char}
    (hwell : numeral.WellFormed) (hmax : numeral.MaximalBefore rest) :
    read (numeral.chars ++ rest) = (numeral, rest) := by
  obtain ⟨whole, fraction⟩ := numeral
  have hwhole : ∀ c ∈ whole, c.isDigit = true := hwell.whole_digits
  cases fraction with
  | nil =>
      rw [chars_nil]
      unfold read
      rw [takeWhile_append_of_stop hwhole hmax.stop,
        dropWhile_append_of_stop hwhole hmax.stop]
      split
      · next rest =>
        have hnone : rest.takeWhile Char.isDigit = [] := by
          cases rest with
          | nil => rfl
          | cons c tail => simp [hmax.noPoint rfl c tail rfl]
        rw [hnone]
      · rfl
  | cons digit digits =>
      have hfraction : ∀ c ∈ digit :: digits, c.isDigit = true :=
        hwell.fraction_digits
      have hpoint :
          ∀ c ∈ ('.' :: digit :: digits ++ rest).head?, c.isDigit = false := by
        simp
      rw [chars_cons, List.append_assoc]
      unfold read
      rw [takeWhile_append_of_stop hwhole hpoint,
        dropWhile_append_of_stop hwhole hpoint]
      simp only [List.cons_append]
      rw [← List.cons_append, takeWhile_append_of_stop hfraction hmax.stop,
        dropWhile_append_of_stop hfraction hmax.stop]

theorem wellFormed_read
    {c : Char} (rest : List Char) (hc : c.isDigit = true) :
    (read (c :: rest)).1.WellFormed := by
  constructor
  · simp [whole_read, hc]
  · rw [whole_read]
    exact all_of_takeWhile _ _
  · unfold read
    split
    · split
      · simp
      · exact all_of_takeWhile _ _
    · simp

theorem maximalBefore_read (text : List Char) :
    (read text).1.MaximalBefore (read text).2 := by
  have hstop := stop_of_dropWhile Char.isDigit text
  unfold read
  split
  · next rest hrest =>
    split
    · next hnone =>
      refine ⟨by simp, ?_⟩
      rintro - c tail heq
      cases heq
      cases hdigit : c.isDigit with
      | false => rfl
      | true => simp [hdigit] at hnone
    · next fraction hsome =>
      exact ⟨stop_of_dropWhile _ _, fun hnil => (hsome hnil).elim⟩
  · next hpoint =>
    refine ⟨hstop, ?_⟩
    rintro - c tail heq
    exact (hpoint _ heq).elim

end Numeral

/-! ## Operators -/

namespace Operator

/-- The text behind an operator does not turn it into a longer one or into a comment. -/
def MaximalBefore (rest : List Char) (op : Operator) : Prop :=
  ∀ c ∈ rest.head?,
    (op.withEqual?.isSome → c ≠ '=') ∧ (op = .slash → c ≠ '/')

theorem withEqual?_isSome_iff {op : Operator} :
    op.withEqual?.isSome = true ↔ op ∈ [.bang, .equal, .less, .greater] := by
  cases op <;> decide

/-- The first character of an operator begins no text of another class but a comment. -/
theorem plain_of_ofChar?
    {c : Char} {op : Operator} (hop : ofChar? c = some op) :
    isBlank c = false ∧ c ≠ '"' ∧ c.isDigit = false ∧ isWordStart c = false := by
  unfold ofChar? at hop
  split at hop <;> first | decide | cases hop

theorem read?_of_maximalBefore
    {op : Operator} {rest : List Char} (hmax : op.MaximalBefore rest)
    {c : Char} {tail : List Char} (htext : op.chars ++ rest = c :: tail) :
    read? c tail = some (op, rest) := by
  cases rest with
  | nil => cases op <;> cases htext <;> rfl
  | cons d rest =>
      have hd := hmax d rfl
      cases op <;> cases htext <;>
        simp_all [read?, ofChar?, withEqual?]

theorem maximalBefore_of_read?
    {c : Char} {tail rest : List Char} {op : Operator}
    (hread : read? c tail = some (op, rest))
    (hcomment : ¬ (c = '/' ∧ tail.head? = some '/')) :
    op.MaximalBefore rest := by
  unfold read? at hread
  cases hop : ofChar? c with
  | none => simp [hop] at hread
  | some narrow =>
      simp only [hop] at hread
      split at hread
      · next wide rest hwide =>
        cases hread
        intro d _
        cases narrow <;> cases hwide <;> simp [withEqual?]
      · next hnarrow =>
        cases hread
        rintro d hd
        refine ⟨?_, ?_⟩
        · rintro hsome rfl
          obtain ⟨wide, hwide⟩ := Option.isSome_iff_exists.mp hsome
          obtain ⟨rest, rfl⟩ := List.head?_eq_some_iff.mp hd
          exact hnarrow wide rest hwide rfl
        · rintro rfl rfl
          have hchars := chars_of_ofChar? hop
          simp only [chars, List.cons.injEq, and_true] at hchars
          exact hcomment ⟨hchars.symm, hd⟩

end Operator

/-! ## Classes of characters -/

theorem isDigit_eq_false_of_isWordStart
    {c : Char} (hc : isWordStart c = true) : c.isDigit = false := by
  by_cases hscore : c = '_'
  · subst c
    rfl
  · simp only [isWordStart, hscore, decide_false, Bool.or_false, Char.isAlpha,
      Char.isUpper, Char.isLower, Bool.or_eq_true, Bool.and_eq_true,
      decide_eq_true_eq, UInt32.le_iff_toNat_le] at hc
    simp only [Char.isDigit, Bool.and_eq_false_iff, decide_eq_false_iff_not,
      UInt32.le_iff_toNat_le]
    simp at hc ⊢
    omega

theorem isWordPart_of_isDigit
    {c : Char} (hc : c.isDigit = true) : isWordPart c = true := by
  simp [isWordPart, Char.isAlphanum, hc]

theorem isWordPart_of_isWordStart
    {c : Char} (hc : isWordStart c = true) : isWordPart c = true := by
  simp only [isWordStart, Bool.or_eq_true] at hc
  rcases hc with hc | hc <;> simp [isWordPart, Char.isAlphanum, hc]

theorem isBlank_eq_false_of_isWordPart
    {c : Char} (hc : isWordPart c = true) : isBlank c = false := by
  by_contra hblank
  simp only [isBlank, Bool.or_eq_true, decide_eq_true_eq, Bool.not_eq_false] at hblank
  rcases hblank with ((rfl | rfl) | rfl) | rfl <;> cases hc

/-- A character that begins no segment but itself. -/
structure IsStray (c : Char) : Prop where
  notBlank : isBlank c = false
  notQuote : c ≠ '"'
  notDigit : c.isDigit = false
  notWordStart : isWordStart c = false
  noOperator : Operator.ofChar? c = none

/-! ## Segments -/

namespace Segment

/-- The segment can stand before `rest` as far as its own text is concerned.  Only an open string
asks for something behind it: the end of the source. -/
def LegalBefore (rest : List Char) : Segment → Prop
  | .blank c => isBlank c = true
  | .comment body => '\n' ∉ body
  | .operator _ => True
  | .number numeral => numeral.WellFormed
  | .word text =>
    ∃ c tail, text = c :: tail ∧ isWordStart c = true ∧
      ∀ d ∈ tail, isWordPart d = true
  | .string body => '"' ∉ body
  | .openString body => '"' ∉ body ∧ rest = []
  | .stray c => IsStray c

/-- The beginning of `rest` does not continue the segment. -/
def MaximalBefore (rest : List Char) : Segment → Prop
  | .comment _ => ∀ c ∈ rest.head?, c = '\n'
  | .operator op => op.MaximalBefore rest
  | .number numeral => numeral.MaximalBefore rest
  | .word _ => ∀ c ∈ rest.head?, isWordPart c = false
  | .blank _ | .string _ | .openString _ | .stray _ => True

theorem read_of_isBlank
    {c : Char} (hc : isBlank c = true) (rest : List Char) :
    read c rest = (.blank c, rest) := by
  simp [read, hc]

theorem read_slash_slash (rest : List Char) :
    read '/' ('/' :: rest) =
      (.comment (rest.takeWhile (· ≠ '\n')), rest.dropWhile (· ≠ '\n')) := by
  simp [read, isBlank]

theorem read_quote (rest : List Char) : read '"' rest = readString rest := by
  simp [read, isBlank]

theorem read_of_isDigit
    {c : Char} (hc : c.isDigit = true) (rest : List Char) :
    read c rest =
      (.number (Numeral.read (c :: rest)).1, (Numeral.read (c :: rest)).2) := by
  have hblank := isBlank_eq_false_of_isWordPart (isWordPart_of_isDigit hc)
  have hslash : c ≠ '/' := by rintro rfl; simp at hc
  have hquote : c ≠ '"' := by rintro rfl; simp at hc
  simp [read, hblank, hslash, hquote, hc]

theorem read_of_isWordStart
    {c : Char} (hc : isWordStart c = true) (rest : List Char) :
    read c rest =
      (.word (c :: rest.takeWhile isWordPart), rest.dropWhile isWordPart) := by
  have hblank := isBlank_eq_false_of_isWordPart (isWordPart_of_isWordStart hc)
  have hdigit := isDigit_eq_false_of_isWordStart hc
  have hslash : c ≠ '/' := by rintro rfl; simp [isWordStart] at hc
  have hquote : c ≠ '"' := by rintro rfl; simp [isWordStart] at hc
  simp [read, hblank, hdigit, hslash, hquote, hc]

theorem read_of_operator
    {c : Char} {rest after : List Char} {op : Operator}
    (hread : Operator.read? c rest = some (op, after))
    (hcomment : ¬ (c = '/' ∧ rest.head? = some '/')) :
    read c rest = (.operator op, after) := by
  cases hnarrow : Operator.ofChar? c with
  | none => simp [Operator.read?, hnarrow] at hread
  | some narrow =>
      obtain ⟨hblank, hquote, hdigit, hword⟩ := Operator.plain_of_ofChar? hnarrow
      simp [read, hblank, hcomment, hquote, hdigit, hword, hread]

theorem read_of_isStray
    {c : Char} (hc : IsStray c) (rest : List Char) :
    read c rest = (.stray c, rest) := by
  have hslash : c ≠ '/' := by
    rintro rfl
    cases hc.noOperator
  simp [read, Operator.read?, hc.notBlank, hc.notQuote, hc.notDigit,
    hc.notWordStart, hc.noOperator, hslash]

theorem readString_open
    {text : List Char} (htext : '"' ∉ text) :
    readString text = (.openString text, []) := by
  rw [readString, List.dropWhile_eq_nil_iff.mpr (passes_of_notMem htext)]

theorem readString_closed
    {body : List Char} (rest : List Char) (hbody : '"' ∉ body) :
    readString (body ++ '"' :: rest) = (.string body, rest) := by
  have hpass := passes_of_notMem hbody
  have hstop : ∀ c ∈ ('"' :: rest).head?, decide (c ≠ '"') = false := by
    simp
  rw [readString, dropWhile_append_of_stop hpass hstop,
    takeWhile_append_of_stop hpass hstop]

theorem beginning_cases (c : Char) (rest : List Char) :
    isBlank c = true ∨ (c = '/' ∧ rest.head? = some '/') ∨ c = '"' ∨
      c.isDigit = true ∨ isWordStart c = true ∨
      (∃ op after, Operator.read? c rest = some (op, after) ∧
        ¬ (c = '/' ∧ rest.head? = some '/')) ∨
      IsStray c := by
  by_cases hblank : isBlank c = true
  · exact .inl hblank
  by_cases hcomment : c = '/' ∧ rest.head? = some '/'
  · exact .inr (.inl hcomment)
  by_cases hquote : c = '"'
  · exact .inr (.inr (.inl hquote))
  by_cases hdigit : c.isDigit = true
  · exact .inr (.inr (.inr (.inl hdigit)))
  by_cases hword : isWordStart c = true
  · exact .inr (.inr (.inr (.inr (.inl hword))))
  refine .inr (.inr (.inr (.inr (.inr ?_))))
  cases hread : Operator.read? c rest with
  | some result =>
      exact .inl ⟨result.1, result.2, rfl, hcomment⟩
  | none =>
      refine .inr ⟨by simpa using hblank, hquote, by simpa using hdigit,
        by simpa using hword, ?_⟩
      unfold Operator.read? at hread
      split at hread
      · assumption
      · split at hread <;> cases hread

theorem legal_and_maximal_read (c : Char) (rest : List Char) :
    (read c rest).1.LegalBefore (read c rest).2 ∧
      (read c rest).1.MaximalBefore (read c rest).2 := by
  rcases beginning_cases c rest with
    hblank | ⟨rfl, hslash⟩ | rfl | hdigit | hword | ⟨op, after, hread, hcomment⟩ | hstray
  · rw [read_of_isBlank hblank]
    exact ⟨hblank, trivial⟩
  · obtain ⟨tail, rfl⟩ := List.head?_eq_some_iff.mp hslash
    rw [read_slash_slash]
    constructor
    · intro hmem
      simpa using all_of_takeWhile _ _ _ hmem
    · intro c hc
      simpa using stop_of_dropWhile _ _ c hc
  · rw [read_quote]
    by_cases hmem : '"' ∈ rest
    · obtain ⟨body, after, rfl, hbody⟩ := List.eq_append_cons_of_mem hmem
      rw [readString_closed after hbody]
      exact ⟨hbody, trivial⟩
    · rw [readString_open hmem]
      exact ⟨⟨hmem, rfl⟩, trivial⟩
  · rw [read_of_isDigit hdigit]
    exact ⟨Numeral.wellFormed_read rest hdigit, Numeral.maximalBefore_read _⟩
  · rw [read_of_isWordStart hword]
    exact ⟨⟨c, _, rfl, hword, all_of_takeWhile _ _⟩, stop_of_dropWhile _ _⟩
  · rw [read_of_operator hread hcomment]
    exact ⟨trivial, Operator.maximalBefore_of_read? hread hcomment⟩
  · rw [read_of_isStray hstray]
    exact ⟨hstray, trivial⟩

theorem read_eq_of_maximal
    {segment : Segment} {rest : List Char}
    (hlegal : segment.LegalBefore rest) (hmax : segment.MaximalBefore rest)
    {c : Char} {tail : List Char} (htext : segment.chars ++ rest = c :: tail) :
    read c tail = (segment, rest) := by
  cases segment with
  | blank b =>
      cases htext
      exact read_of_isBlank hlegal rest
  | comment body =>
      have hbody := passes_of_notMem hlegal
      have hstop : ∀ c ∈ rest.head?, decide (c ≠ '\n') = false := by
        intro c hc
        simpa using hmax c hc
      cases htext
      rw [List.append_eq, List.cons_append, read_slash_slash, takeWhile_append_of_stop hbody hstop,
        dropWhile_append_of_stop hbody hstop]
  | operator op =>
      refine read_of_operator (Operator.read?_of_maximalBefore hmax htext) ?_
      rintro ⟨rfl, hslash⟩
      cases op <;> simp only [chars, Operator.chars, List.cons_append, List.nil_append,
        List.cons.injEq, Char.reduceEq, false_and, true_and] at htext
      subst htext
      exact (hmax '/' hslash).2 rfl rfl
  | number numeral =>
      obtain ⟨d, digits, hwhole⟩ := List.exists_cons_of_ne_nil hlegal.whole_ne_nil
      have hhead : c = d := by
        simp only [chars, Numeral.chars, hwhole] at htext
        split at htext <;> cases htext <;> rfl
      have hdigit : c.isDigit = true :=
        hlegal.whole_digits c (by simp [hwhole, hhead])
      rw [read_of_isDigit hdigit, ← htext]
      exact congrArg (fun result => (Segment.number result.1, result.2))
        (Numeral.read_chars_append hlegal hmax)
  | word text =>
      obtain ⟨d, parts, rfl, hstart, hparts⟩ := hlegal
      cases htext
      rw [List.append_eq, read_of_isWordStart hstart,
        takeWhile_append_of_stop hparts hmax, dropWhile_append_of_stop hparts hmax]
  | string body =>
      have hquote : '"' :: (body ++ '"' :: rest) = c :: tail := by
        simpa [chars] using htext
      cases hquote
      rw [read_quote, readString_closed rest hlegal]
  | openString body =>
      obtain ⟨hbody, rfl⟩ := hlegal
      cases htext
      rw [List.append_eq, List.append_nil, read_quote, readString_open hbody]
  | stray b =>
      cases htext
      exact read_of_isStray hlegal rest

theorem read_eq_iff
    {c : Char} {tail rest : List Char} {segment : Segment} :
    read c tail = (segment, rest) ↔
      segment.chars ++ rest = c :: tail ∧
        segment.LegalBefore rest ∧ segment.MaximalBefore rest := by
  constructor
  · intro hread
    have hchars := chars_read_append c tail
    have hends := legal_and_maximal_read c tail
    rw [hread] at hchars hends
    exact ⟨hchars, hends⟩
  · rintro ⟨htext, hlegal, hmax⟩
    exact read_eq_of_maximal hlegal hmax htext

theorem LegalBefore.chars_ne_nil
    {segment : Segment} {rest : List Char} (hlegal : segment.LegalBefore rest) :
    segment.chars ≠ [] := by
  cases segment with
  | operator op => exact op.chars_ne_nil
  | number numeral => exact Numeral.chars_ne_nil hlegal.whole_ne_nil
  | word text =>
      obtain ⟨c, tail, rfl, -, -⟩ := hlegal
      simp [chars]
  | _ => simp [chars]

theorem LegalBefore.toEnd
    {segment : Segment} {rest : List Char} (hlegal : segment.LegalBefore rest) :
    segment.LegalBefore [] := by
  cases segment with
  | openString body => exact ⟨hlegal.1, rfl⟩
  | _ => exact hlegal

theorem maximalBefore_nil (segment : Segment) : segment.MaximalBefore [] := by
  cases segment with
  | number numeral => exact ⟨by simp, by simp⟩
  | _ => simp [MaximalBefore, Operator.MaximalBefore]

/-! ## The longest segment -/

private theorem exists_longer_number
    {numeral : Numeral} {rest : List Char}
    (hwell : numeral.WellFormed) (hnot : ¬ numeral.MaximalBefore rest) :
    ∃ (longer : Numeral) (more after : List Char), more ≠ [] ∧ rest = more ++ after ∧
      longer.WellFormed ∧ longer.chars = numeral.chars ++ more := by
  obtain ⟨whole, fraction⟩ := numeral
  by_cases hstop : ∀ c ∈ rest.head?, c.isDigit = false
  · have hpoint : ¬ (fraction = [] →
        ∀ c tail, rest = '.' :: c :: tail → c.isDigit = false) :=
      fun h => hnot ⟨hstop, h⟩
    push Not at hpoint
    obtain ⟨rfl, c, tail, rfl, hc⟩ := hpoint
    refine ⟨⟨whole, [c]⟩, ['.', c], tail, by simp, rfl, ⟨hwell.whole_ne_nil,
      hwell.whole_digits, ?_⟩, rfl⟩
    simpa using hc
  · push Not at hstop
    obtain ⟨c, hc, hdigit⟩ := hstop
    obtain ⟨after, rfl⟩ := List.head?_eq_some_iff.mp hc
    have hlast : ∀ d ∈ [c], d.isDigit = true := by
      simpa using hdigit
    have hmore : ∀ run : List Char, (∀ d ∈ run, d.isDigit = true) →
        ∀ d ∈ run ++ [c], d.isDigit = true :=
      fun run hrun => List.forall_mem_append.mpr ⟨hrun, hlast⟩
    cases fraction with
    | nil =>
        exact ⟨⟨whole ++ [c], []⟩, [c], after, by simp, rfl,
          ⟨by simp, hmore whole hwell.whole_digits, by simp⟩, rfl⟩
    | cons d digits =>
        refine ⟨⟨whole, d :: digits ++ [c]⟩, [c], after, by simp, rfl,
          ⟨hwell.whole_ne_nil, hwell.whole_digits,
            hmore _ hwell.fraction_digits⟩, ?_⟩
        simp

/-- A legal segment that is not maximal is the beginning of a longer one. -/
theorem exists_longer
    {segment : Segment} {rest : List Char}
    (hlegal : segment.LegalBefore rest) (hnot : ¬ segment.MaximalBefore rest) :
    ∃ (longer : Segment) (more after : List Char), more ≠ [] ∧ rest = more ++ after ∧
      longer.LegalBefore after ∧ longer.chars = segment.chars ++ more := by
  cases segment with
  | comment body =>
      simp only [MaximalBefore] at hnot
      push Not at hnot
      obtain ⟨c, hc, hline⟩ := hnot
      obtain ⟨after, rfl⟩ := List.head?_eq_some_iff.mp hc
      refine ⟨.comment (body ++ [c]), [c], after, by simp, rfl, ?_, by simp [chars]⟩
      intro hmem
      rcases List.mem_append.mp hmem with hmem | hmem
      · exact hlegal hmem
      · exact hline (List.mem_singleton.mp hmem).symm
  | operator op =>
      simp only [MaximalBefore, Operator.MaximalBefore] at hnot
      push Not at hnot
      obtain ⟨c, hc, hnext⟩ := hnot
      obtain ⟨after, rfl⟩ := List.head?_eq_some_iff.mp hc
      by_cases hequal : op.withEqual?.isSome ∧ c = '='
      · obtain ⟨hsome, rfl⟩ := hequal
        obtain ⟨wide, hwide⟩ := Option.isSome_iff_exists.mp hsome
        exact ⟨.operator wide, ['='], after, by simp, rfl, trivial,
          Operator.chars_of_withEqual? hwide⟩
      · obtain ⟨rfl, rfl⟩ := hnext fun hsome heq => hequal ⟨hsome, heq⟩
        exact ⟨.comment [], ['/'], after, by simp, rfl, by simp [LegalBefore], rfl⟩
  | number numeral =>
      obtain ⟨longer, more, after, hmore, hrest, hwell, hchars⟩ :=
        exists_longer_number hlegal hnot
      exact ⟨.number longer, more, after, hmore, hrest, hwell, hchars⟩
  | word text =>
      simp only [MaximalBefore] at hnot
      push Not at hnot
      obtain ⟨c, hc, hpart⟩ := hnot
      obtain ⟨after, rfl⟩ := List.head?_eq_some_iff.mp hc
      obtain ⟨d, tail, rfl, hstart, htail⟩ := hlegal
      have hlast : ∀ e ∈ [c], isWordPart e = true := by
        simpa using hpart
      exact ⟨.word (d :: tail ++ [c]), [c], after, by simp, rfl,
        ⟨d, tail ++ [c], rfl, hstart, List.forall_mem_append.mpr ⟨htail, hlast⟩⟩, rfl⟩
  | blank | string | openString | stray => exact (hnot trivial).elim

/-- No legal segment at the beginning of a text is longer than the one read there. -/
theorem LegalBefore.length_le_read
    {segment : Segment} {rest : List Char} (hlegal : segment.LegalBefore rest)
    {c : Char} {tail : List Char} (htext : segment.chars ++ rest = c :: tail) :
    segment.chars.length ≤ (read c tail).1.chars.length := by
  by_cases hmax : segment.MaximalBefore rest
  · rw [read_eq_of_maximal hlegal hmax htext]
  · obtain ⟨longer, more, after, hmore, hrest, hlonger, hchars⟩ :=
      exists_longer hlegal hmax
    have hlongerText : longer.chars ++ after = c :: tail := by
      rw [hchars, List.append_assoc, ← hrest]
      exact htext
    have hlength := hlonger.length_le_read hlongerText
    rw [hchars, List.length_append] at hlength
    omega
termination_by rest.length
decreasing_by
  have hpos := List.length_pos_iff.mpr hmore
  rw [hrest, List.length_append]
  omega

theorem LegalBefore.length_lt_read
    {segment : Segment} {rest : List Char} (hlegal : segment.LegalBefore rest)
    (hnot : ¬ segment.MaximalBefore rest)
    {c : Char} {tail : List Char} (htext : segment.chars ++ rest = c :: tail) :
    segment.chars.length < (read c tail).1.chars.length := by
  obtain ⟨longer, more, after, hmore, rfl, hlonger, hchars⟩ :=
    exists_longer hlegal hnot
  have hpos := List.length_pos_iff.mpr hmore
  have hlongerText : longer.chars ++ after = c :: tail := by
    rw [hchars, List.append_assoc]
    exact htext
  have hlength := hlonger.length_le_read hlongerText
  rw [hchars, List.length_append] at hlength
  omega

/-! ## Sources -/

/-- Segments that each are legal and maximal before the text of those that follow. -/
inductive Fitted : List Segment → Prop
  | nil : Fitted []
  | cons {segment : Segment} {segments : List Segment}
      (hlegal : segment.LegalBefore (segments.flatMap chars))
      (hmax : segment.MaximalBefore (segments.flatMap chars))
      (hfitted : Fitted segments) : Fitted (segment :: segments)

theorem fitted_cut (text : List Char) : Fitted (cut text) := by
  match text with
  | [] =>
      rw [cut_nil]
      exact .nil
  | c :: rest =>
      obtain ⟨hlegal, hmax⟩ := legal_and_maximal_read c rest
      rw [cut_cons]
      refine .cons ?_ ?_ (fitted_cut _)
      · rwa [flatMap_chars_cut]
      · rwa [flatMap_chars_cut]
termination_by text.length
decreasing_by exact length_read_lt c rest

theorem cut_append_of_maximal
    {segment : Segment} {rest : List Char}
    (hlegal : segment.LegalBefore rest) (hmax : segment.MaximalBefore rest) :
    cut (segment.chars ++ rest) = segment :: cut rest := by
  obtain ⟨c, tail, htext⟩ :=
    List.exists_cons_of_ne_nil (List.append_ne_nil_of_left_ne_nil hlegal.chars_ne_nil rest)
  rw [htext, cut_cons, read_eq_of_maximal hlegal hmax htext]

theorem Fitted.cut_flatMap_chars
    {segments : List Segment} (hfitted : Fitted segments) :
    cut (segments.flatMap chars) = segments := by
  induction hfitted with
  | nil => exact cut_nil
  | cons hlegal hmax _ ih =>
      rw [List.flatMap_cons, cut_append_of_maximal hlegal hmax, ih]

/-- The segments of a source are the fitted ones that make it up. -/
theorem cut_eq_iff
    {text : List Char} {segments : List Segment} :
    cut text = segments ↔ segments.flatMap chars = text ∧ Fitted segments := by
  constructor
  · rintro rfl
    exact ⟨flatMap_chars_cut text, fitted_cut text⟩
  · rintro ⟨rfl, hfitted⟩
    exact hfitted.cut_flatMap_chars

theorem Fitted.chars_ne_nil_of_mem
    {segments : List Segment} (hfitted : Fitted segments) :
    ∀ segment ∈ segments, segment.chars ≠ [] := by
  induction hfitted with
  | nil => simp
  | cons hlegal _ _ ih =>
      intro other hmem
      rcases List.mem_cons.mp hmem with rfl | hmem
      · exact hlegal.chars_ne_nil
      · exact ih other hmem

theorem Fitted.of_append
    {before after : List Segment} (hfitted : Fitted (before ++ after)) : Fitted after := by
  induction before with
  | nil => exact hfitted
  | cons first before ih =>
      cases hfitted with
      | cons _ _ hfitted => exact ih hfitted

theorem Fitted.maximal_of_append
    {before after : List Segment} {segment : Segment}
    (hfitted : Fitted (before ++ segment :: after)) :
    segment.MaximalBefore (after.flatMap chars) := by
  cases hfitted.of_append with
  | cons _ hmax _ => exact hmax

end Segment

end LoxLexer
