import LoxLexer.Number.Binary64
import LoxLexer.Number.Numeral

/-!
# Rounding to binary64

A quotient of natural numbers is rounded to the nearest magnitude, a tie going to the even one.  The
quotient is measured in units of `2 ^ -1074`; a quotient of `53 + k` binary digits keeps the
upper 53, rounded, so it becomes a multiple of `2 ^ k` units.  The magnitude of `m * 2 ^ k` units is
`m` and `k` binades more, also when rounding has carried `m` to `2 ^ 53`.  What rounds past the
greatest finite magnitude is infinite.
-/

namespace LoxLexer

/-- The natural number nearest to a quotient; of two equally near the even one. -/
def roundDiv (numerator denominator : Nat) : Nat :=
  let quotient := numerator / denominator
  let twice := 2 * (numerator % denominator)
  if twice < denominator ∨ (twice = denominator ∧ quotient % 2 = 0) then quotient
  else quotient + 1

namespace Binary64

/-- The magnitude nearest to a quotient; of two equally near the even one. -/
def nearestMagnitude (numerator denominator : Nat) : Nat :=
  let measured := numerator <<< 1074
  let shift := (measured / denominator).log2 - 52
  min (shift * binade + roundDiv measured (denominator <<< shift)) infinity

def ofRatio (numerator denominator : Nat) : Binary64 :=
  ofMagnitude (nearestMagnitude numerator denominator)

end Binary64

/-- The datum nearest to the value of a numeral. -/
def Numeral.toBinary64 (numeral : Numeral) : Binary64 :=
  Binary64.ofRatio numeral.numerator numeral.denominator

end LoxLexer
