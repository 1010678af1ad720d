import LoxLexer.Number.Binary64
import LoxLexer.Number.Numeral

/-!
# The shortest numeral of a binary64 number

The numbers that round to a given magnitude form an interval, whose ends are half way to the two
neighbouring magnitudes and belong to it if the magnitude is even.  Among the powers of ten that
have a multiple in this interval the greatest is chosen, and of its multiples the one nearest to
the value; of two equally near, the greater.  Its decimal digits are the shortest ones that read
back.

All quantities are natural numbers in units of `10 ^ -1074`, in which `2 ^ -1074` is `5 ^ 1074`; so
each value is a multiple of `10 ^ 0`, and the search ends there at the latest.
-/

namespace LoxLexer.Binary64

/-- A decimal number: `coefficient * 10 ^ level` in units of `10 ^ -1074`. -/
structure Decimal where
  coefficient : Nat
  level : Nat
  deriving DecidableEq, Repr

/-- A decimal number written out, with no exponent and at least one digit before the point. -/
def Decimal.numeral (decimal : Decimal) : Numeral :=
  let digits := Nat.toDigits 10 decimal.coefficient
  if 1074 ≤ decimal.level then
    ⟨digits ++ List.replicate (decimal.level - 1074) '0', []⟩
  else
    let places := 1074 - decimal.level
    let padded := List.replicate (places + 1 - digits.length) '0' ++ digits
    ⟨padded.take (padded.length - places), padded.drop (padded.length - places)⟩

/-- The numbers that round to a magnitude. -/
structure RoundingInterval where
  /-- The value of the magnitude. -/
  value : Nat
  /-- Twice the least number. -/
  twiceLow : Nat
  /-- Twice the greatest number. -/
  twiceHigh : Nat
  /-- Whether the least and the greatest number belong to the interval. -/
  closed : Bool
  deriving DecidableEq, Repr

/-- The least positive value, `2 ^ -1074`. -/
def quantum : Nat := Nat.pow 5 1074

/-- The interval around a magnitude that is neither zero nor infinite. -/
def roundingInterval (magnitude : Nat) : RoundingInterval where
  value := units magnitude * quantum
  twiceLow := (units (magnitude - 1) + units magnitude) * quantum
  twiceHigh := (units magnitude + units (magnitude + 1)) * quantum
  closed := magnitude % 2 = 0

namespace RoundingInterval

def contains (interval : RoundingInterval) (x : Nat) : Bool :=
  if interval.closed then interval.twiceLow ≤ 2 * x && 2 * x ≤ interval.twiceHigh
  else interval.twiceLow < 2 * x && 2 * x < interval.twiceHigh

/-- The multiple of `step` in the interval that is nearest to its value, divided by `step`. -/
def nearestMultiple? (interval : RoundingInterval) (step : Nat) : Option Nat :=
  let below := interval.value / step
  let above := below + 1
  match interval.contains (below * step), interval.contains (above * step) with
  | true, true => some (if 2 * (interval.value % step) < step then below else above)
  | true, false => some below
  | false, true => some above
  | false, false => none

/-- The nearest multiple of the greatest power of ten, up to the given one, that has a multiple in
the interval. -/
def coarsest (interval : RoundingInterval) : (level : Nat) → Decimal
  | 0 => ⟨interval.value, 0⟩
  | level + 1 =>
    match interval.nearestMultiple? (Nat.pow 10 (level + 1)) with
    | some coefficient => ⟨coefficient, level + 1⟩
    | none => interval.coarsest level

/-- A level whose power of ten exceeds the interval, since `28 / 93` exceeds the decimal logarithm
of two. -/
def topLevel (interval : RoundingInterval) : Nat :=
  (interval.twiceHigh.log2 + 1) * 28 / 93 + 1

end RoundingInterval

/-- The shortest numeral that rounds to a finite magnitude. -/
def shortestNumeral (magnitude : Nat) : Numeral :=
  if magnitude = 0 then ⟨['0'], []⟩
  else
    let interval := roundingInterval magnitude
    (interval.coarsest interval.topLevel).numeral

/-- A datum as text: the shortest numeral behind its sign, or a name if it is not finite. -/
def text (x : Binary64) : String :=
  if x.isNaN then "NaN"
  else
    let sign := if x.isNegative then "-" else ""
    if x.isInfinite then sign ++ "inf"
    else sign ++ String.ofList (shortestNumeral x.magnitude).chars

end LoxLexer.Binary64
