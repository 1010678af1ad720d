/-!
# Binary64 numbers

A datum of the binary64 format is a word of 64 bits: a sign bit over a magnitude of 63 bits.  The
magnitudes below `infinity` are the finite values in increasing order; each is a natural multiple
of the least positive one, `2 ^ -1074`, and `units` is that multiple.
-/

namespace LoxLexer

/-- A datum of the binary64 format. -/
structure Binary64 where
  bits : UInt64
  deriving DecidableEq, Repr

namespace Binary64

/-- The number of magnitudes that share an exponent, `2 ^ 52`. -/
def binade : Nat := 0x10000000000000

/-- The weight of the sign bit, `2 ^ 63`. -/
def signWeight : Nat := 0x8000000000000000

/-- The magnitude of the two infinities; a larger magnitude is no number. -/
def infinity : Nat := 0x7FF0000000000000

/-- The integral significand of a magnitude.  Behind the first binade a leading one is implied. -/
def significand (magnitude : Nat) : Nat :=
  if magnitude < binade then magnitude else binade + magnitude % binade

/-- The binary digits by which the significand is shifted, over `2 ^ -1074`. -/
def scale (magnitude : Nat) : Nat :=
  magnitude / binade - 1

/-- The value of a magnitude, as a multiple of `2 ^ -1074`. -/
def units (magnitude : Nat) : Nat :=
  significand magnitude <<< scale magnitude

def ofMagnitude (magnitude : Nat) : Binary64 :=
  ⟨UInt64.ofNat magnitude⟩

def magnitude (x : Binary64) : Nat :=
  x.bits.toNat % signWeight

def isNegative (x : Binary64) : Bool :=
  signWeight ≤ x.bits.toNat

def isNaN (x : Binary64) : Bool :=
  infinity < x.magnitude

def isInfinite (x : Binary64) : Bool :=
  x.magnitude = infinity

def isFinite (x : Binary64) : Bool :=
  x.magnitude < infinity

/-- Equality of numbers: a datum that is no number equals nothing, and the two zeros are equal. -/
def equals (x y : Binary64) : Bool :=
  !x.isNaN && !y.isNaN && (x.bits == y.bits || (x.magnitude == 0 && y.magnitude == 0))

theorem toNat_bits_ofMagnitude {code : Nat} (hcode : code < signWeight) :
    (ofMagnitude code).bits.toNat = code := by
  simp only [signWeight] at hcode
  simp only [ofMagnitude, UInt64.toNat_ofNat']
  omega

theorem magnitude_ofMagnitude {code : Nat} (hcode : code < signWeight) :
    (ofMagnitude code).magnitude = code := by
  rw [magnitude, toNat_bits_ofMagnitude hcode, Nat.mod_eq_of_lt hcode]

theorem isNegative_ofMagnitude {code : Nat} (hcode : code < signWeight) :
    (ofMagnitude code).isNegative = false := by
  rw [isNegative, toNat_bits_ofMagnitude hcode]
  simpa using hcode

end Binary64

end LoxLexer
