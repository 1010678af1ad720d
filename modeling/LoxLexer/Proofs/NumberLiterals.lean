import LoxLexer.Proofs.NearestBinary64
import LoxLexer.Proofs.PrintedTokens

/-!
# Number literals

A text of digits with a point denotes a number: the digits before the point count ones, tens and so
on, those behind it tenths, hundredths and so on.  The literal of a number token is this number, of
the whole lexeme, rounded once.  So it does not matter how long the lexeme is, and where the digit
stands that decides a tie.
-/

namespace LoxLexer

/-- The value of the digits behind a point. -/
def fractionValue : List Char → ℚ
  | [] => 0
  | c :: digits => ((c.toNat - '0'.toNat : ℕ) + fractionValue digits) / 10

/-- The number that a text of digits, possibly with a point among them, denotes. -/
def exactValue (text : List Char) : ℚ :=
  Nat.ofDigitChars 10 (text.takeWhile (· ≠ '.')) 0 +
    fractionValue (text.dropWhile (· ≠ '.')).tail

theorem fractionValue_nonneg (digits : List Char) : 0 ≤ fractionValue digits := by
  induction digits with
  | nil => exact le_rfl
  | cons c digits ih => exact div_nonneg (add_nonneg (Nat.cast_nonneg _) ih) (by norm_num)

theorem exactValue_nonneg (text : List Char) : 0 ≤ exactValue text :=
  add_nonneg (Nat.cast_nonneg _) (fractionValue_nonneg _)

/-- Digits that are read on behind others, as if there were no point between them. -/
theorem ofDigitChars_eq_mul_pow (digits : List Char) (before : ℕ) :
    (Nat.ofDigitChars 10 digits before : ℚ) =
      (before + fractionValue digits) * 10 ^ digits.length := by
  induction digits generalizing before with
  | nil => simp [fractionValue]
  | cons c digits ih =>
      rw [Nat.ofDigitChars_cons, ih, fractionValue, List.length_cons, Nat.cast_add, Nat.cast_mul,
        Nat.cast_ofNat]
      ring

namespace Numeral

theorem WellFormed.whole_passes {numeral : Numeral} (hwell : numeral.WellFormed) :
    ∀ c ∈ numeral.whole, decide (c ≠ '.') = true :=
  passes_of_notMem fun hmem => nomatch hwell.whole_digits '.' hmem

theorem takeWhile_chars {numeral : Numeral} (hwell : numeral.WellFormed) :
    numeral.chars.takeWhile (· ≠ '.') = numeral.whole := by
  have hpass := hwell.whole_passes
  obtain ⟨whole, fraction⟩ := numeral
  cases fraction with
  | nil => exact List.takeWhile_eq_self_iff.mpr hpass
  | cons digit digits =>
      rw [chars_cons]
      exact takeWhile_append_of_stop hpass (by simp)

theorem dropWhile_chars {numeral : Numeral} (hwell : numeral.WellFormed) :
    (numeral.chars.dropWhile (· ≠ '.')).tail = numeral.fraction := by
  have hpass := hwell.whole_passes
  obtain ⟨whole, fraction⟩ := numeral
  cases fraction with
  | nil =>
      rw [chars_nil, List.dropWhile_eq_nil_iff.mpr hpass]
      rfl
  | cons digit digits =>
      rw [chars_cons, dropWhile_append_of_stop hpass (by simp)]
      rfl

/-- The quotient that is rounded is the number that the numeral denotes. -/
theorem numerator_div_denominator {numeral : Numeral} (hwell : numeral.WellFormed) :
    (numeral.numerator / numeral.denominator : ℚ) = exactValue numeral.chars := by
  have hpos : (0 : ℚ) < 10 ^ numeral.fraction.length := pow_pos (by norm_num) _
  have hdenominator : (numeral.denominator : ℚ) = 10 ^ numeral.fraction.length := by
    exact_mod_cast rfl
  rw [exactValue, takeWhile_chars hwell, dropWhile_chars hwell, hdenominator, numerator,
    Nat.ofDigitChars_append, ofDigitChars_eq_mul_pow, mul_div_cancel_right₀ _ hpos.ne']

theorem correctlyRounded_toBinary64 {numeral : Numeral} (hwell : numeral.WellFormed) :
    Binary64.CorrectlyRounded (exactValue numeral.chars) numeral.toBinary64 := by
  rw [← numerator_div_denominator hwell]
  exact Binary64.correctlyRounded_ofRatio _ numeral.denominator_pos

end Numeral

/-- A number token has the shape of a numeral, and its literal is the numeral's, rounded. -/
theorem Token.Scanned.number_literal {token : Token} (hscanned : token.Scanned)
    (hkind : token.kind = .number) :
    ∃ numeral : Numeral, numeral.WellFormed ∧ token.lexeme.toList = numeral.chars ∧
      token.literal = some (.number numeral.toBinary64) := by
  have hshows := hscanned.shows
  have hliteral := hscanned.literal_eq
  rw [hkind] at hshows hliteral
  rcases hshows with hallows | ⟨hend, -⟩
  · obtain ⟨numeral, hwell, hchars⟩ := isNumber_iff.mp hallows
    refine ⟨numeral, hwell, hchars.symm, ?_⟩
    rw [hliteral, ← hchars, TokenKind.literal?, Numeral.read_chars hwell]
  · cases hend

/-- A conversion that is right about all numerals, and may fail on other texts. -/
def ConvertsNumerals (convert : List Char → Option Binary64) : Prop :=
  ∀ text, IsNumber text →
    ∃ x, convert text = some x ∧ Binary64.CorrectlyRounded (exactValue text) x

theorem convertsNumerals_read :
    ConvertsNumerals fun text => some (Numeral.read text).1.toBinary64 := by
  intro text htext
  obtain ⟨numeral, hwell, rfl⟩ := isNumber_iff.mp htext
  refine ⟨_, rfl, ?_⟩
  rw [Numeral.read_chars hwell]
  exact Numeral.correctlyRounded_toBinary64 hwell

/-- The literal of a number token is the number its lexeme denotes, correctly rounded.  Each correct
conversion yields just this literal and does not fail, and the order of the lexemes is kept. -/
theorem number_correctly_rounded {source : String} {token : Token}
    (htoken : token ∈ (scan source).tokens) (hkind : token.kind = .number) :
    IsNumber token.lexeme.toList ∧
    ∃ x : Binary64, token.literal = some (.number x) ∧
      Binary64.CorrectlyRounded (exactValue token.lexeme.toList) x ∧
      (x = ⟨0x7FF0000000000000⟩ ↔ 2 ^ 1024 - 2 ^ 970 ≤ exactValue token.lexeme.toList) ∧
      (x = ⟨0⟩ ↔ exactValue token.lexeme.toList ≤ 1 / 2 ^ 1075) ∧
      (∀ convert, ConvertsNumerals convert → convert token.lexeme.toList = some x) ∧
      ∀ {next : String} {other : Token}, other ∈ (scan next).tokens → other.kind = .number →
        exactValue token.lexeme.toList ≤ exactValue other.lexeme.toList →
          ∃ y : Binary64, other.literal = some (.number y) ∧ x.extended ≤ y.extended := by
  obtain ⟨numeral, hwell, hchars, hliteral⟩ :=
    (scanned_of_mem_tokens source token htoken).number_literal hkind
  have hrounded := Numeral.correctlyRounded_toBinary64 hwell
  have hnumber : IsNumber token.lexeme.toList := isNumber_iff.mpr ⟨numeral, hwell, hchars.symm⟩
  rw [← hchars] at hrounded
  have hnonneg := exactValue_nonneg token.lexeme.toList
  refine ⟨hnumber, _, hliteral, hrounded, ?_, hrounded.eq_zero_iff hnonneg, ?_, ?_⟩
  · exact hrounded.eq_infinity_iff
  · intro convert hconverts
    obtain ⟨x, hconvert, hx⟩ := hconverts _ hnumber
    rw [hconvert, hx.unique hrounded]
  · intro next other hother hnumeric hle
    obtain ⟨second, hsecond, htext, hvalue⟩ :=
      (scanned_of_mem_tokens next other hother).number_literal hnumeric
    have hlater := Numeral.correctlyRounded_toBinary64 hsecond
    rw [← htext] at hlater
    exact ⟨_, hvalue, hrounded.extended_mono hnonneg hle hlater⟩

/-- One more than `2 ^ 53` is as near to the datum below as to the one above; the lower one is even.
The digit in the last place of a long fraction breaks the tie. -/
theorem number_correctly_rounded_tie :
    Binary64.CorrectlyRounded (exactValue "9007199254740993".toList) ⟨0x4340000000000000⟩ ∧
    (Numeral.read "9007199254740993".toList).1.toBinary64 = ⟨0x4340000000000000⟩ ∧
    (⟨0x4340000000000000⟩ : Binary64).extended ≤ (⟨0x4340000000000001⟩ : Binary64).extended := by
  have htie : (⟨.number, "9007199254740993", some (.number ⟨0x4340000000000000⟩), 1⟩ : Token) ∈
      (scan "9007199254740993 < 9007199254740993.00000001").tokens := by
    decide +kernel
  have habove :
      (⟨.number, "9007199254740993.00000001", some (.number ⟨0x4340000000000001⟩), 1⟩ : Token) ∈
        (scan "9007199254740993 < 9007199254740993.00000001").tokens := by
    decide +kernel
  have hle : exactValue "9007199254740993".toList ≤
      exactValue "9007199254740993.00000001".toList := by
    decide +kernel
  obtain ⟨-, x, hx, hrounded, -, -, hconvert, horder⟩ := number_correctly_rounded htie rfl
  obtain ⟨y, hy, hxy⟩ := horder habove rfl hle
  cases hx
  cases hy
  exact ⟨hrounded, Option.some.inj (hconvert _ convertsNumerals_read), hxy⟩

end LoxLexer
