/-!
# Numerals

A numeral is a run of decimal digits, and possibly a point and a second run of digits.  It denotes
the quotient of two natural numbers.  Reading takes the longest numeral a text begins with: a point
belongs to it only if a digit follows the point.
-/

namespace LoxLexer

/-- The digits of a numeral before and after its point; without a point the second run is empty. -/
structure Numeral where
  whole : List Char
  fraction : List Char
  deriving DecidableEq, Repr

namespace Numeral

def chars (numeral : Numeral) : List Char :=
  match numeral.fraction with
  | [] => numeral.whole
  | fraction => numeral.whole ++ '.' :: fraction

@[simp] theorem chars_nil (whole : List Char) : chars ⟨whole, []⟩ = whole := rfl

@[simp] theorem chars_cons (whole fraction : List Char) (digit : Char) :
    chars ⟨whole, digit :: fraction⟩ = whole ++ '.' :: digit :: fraction := rfl

theorem chars_ne_nil {numeral : Numeral} (hwhole : numeral.whole ≠ []) :
    numeral.chars ≠ [] := by
  unfold chars
  split
  · exact hwhole
  · simp

/-- The numerator of the value, over a power of ten. -/
def numerator (numeral : Numeral) : Nat :=
  Nat.ofDigitChars 10 (numeral.whole ++ numeral.fraction) 0

/-- The denominator of the value: ten to the number of digits behind the point. -/
def denominator (numeral : Numeral) : Nat :=
  Nat.pow 10 numeral.fraction.length

theorem denominator_pos (numeral : Numeral) : 0 < numeral.denominator :=
  Nat.pow_pos (by decide)

/-- The longest numeral at the beginning of a text that begins with a digit, and what follows it. -/
def read (text : List Char) : Numeral × List Char :=
  let whole := text.takeWhile Char.isDigit
  match text.dropWhile Char.isDigit with
  | '.' :: rest =>
    match rest.takeWhile Char.isDigit with
    | [] => (⟨whole, []⟩, '.' :: rest)
    | fraction => (⟨whole, fraction⟩, rest.dropWhile Char.isDigit)
  | rest => (⟨whole, []⟩, rest)

theorem whole_read (text : List Char) : (read text).1.whole = text.takeWhile Char.isDigit := by
  unfold read
  split
  · split <;> rfl
  · rfl

theorem chars_read_append (text : List Char) : (read text).1.chars ++ (read text).2 = text := by
  have hwhole := List.takeWhile_append_dropWhile (p := Char.isDigit) (l := text)
  unfold read
  split
  · next rest hrest =>
    have hfraction := List.takeWhile_append_dropWhile (p := Char.isDigit) (l := rest)
    rw [hrest] at hwhole
    split
    · simpa using hwhole
    · next fraction hne =>
      cases hdigits : rest.takeWhile Char.isDigit with
      | nil => exact (hne hdigits).elim
      | cons digit digits =>
        rw [hdigits] at hfraction
        rw [chars_cons, List.append_assoc]
        exact (congrArg (_ ++ '.' :: ·) hfraction).trans hwhole
  · exact hwhole

end Numeral

end LoxLexer
