/-!
# Lengths of time

A length of time is shown in the greatest unit that does not exceed it, down to a nanosecond and
without zeros at its end.
-/

namespace LoxLexer

/-- The number `parts / 10 ^ places` in decimal, without zeros at its end. -/
def fixedPoint (places parts : Nat) : String :=
  let digits := Nat.toDigits 10 (parts % Nat.pow 10 places)
  let padded := List.replicate (places - digits.length) '0' ++ digits
  let fraction := (padded.reverse.dropWhile (· = '0')).reverse
  toString (parts / Nat.pow 10 places) ++
    if fraction = [] then "" else "." ++ String.ofList fraction

/-- A length of time in seconds, milliseconds, microseconds or nanoseconds. -/
def elapsedText (nanoseconds : Nat) : String :=
  if 1000000000 ≤ nanoseconds then fixedPoint 9 nanoseconds ++ "s"
  else if 1000000 ≤ nanoseconds then fixedPoint 6 nanoseconds ++ "ms"
  else if 1000 ≤ nanoseconds then fixedPoint 3 nanoseconds ++ "µs"
  else toString nanoseconds ++ "ns"

end LoxLexer
