import LoxLexer.Proofs.MagnitudeOrder

/-!
# The binary64 number nearest to a number

The value of a datum is read off the three fields of its word: its sign, eleven bits of exponent and
52 bits of fraction.  `CorrectlyRounded` says what IEEE 754 asks of rounding to nearest, ties to
even, for a number that is not negative: which numbers become infinite, that the value is as near as
that of any finite datum, and that it is the even one of two equally near.  Only one datum is so
(`CorrectlyRounded.unique`), and rounding a quotient finds it (`correctlyRounded_ofRatio`).
-/

namespace LoxLexer.Binary64

/-! ## Values by the fields of a word -/

def exponentField (x : Binary64) : ℕ :=
  x.bits.toNat / 2 ^ 52 % 2 ^ 11

def fractionField (x : Binary64) : ℕ :=
  x.bits.toNat % 2 ^ 52

def sign (x : Binary64) : ℚ :=
  if x.isNegative then -1 else 1

/-- The value of a finite datum. -/
def value (x : Binary64) : ℚ :=
  x.sign *
    if x.exponentField = 0 then x.fractionField / 2 ^ 52 * (2 : ℚ) ^ (-1022 : ℤ)
    else (1 + x.fractionField / 2 ^ 52) * (2 : ℚ) ^ ((x.exponentField : ℤ) - 1023)

theorem magnitude_eq_fields (x : Binary64) :
    x.magnitude = x.exponentField * binade + x.fractionField := by
  have hlt := x.bits.toNat_lt
  simp only [magnitude, exponentField, fractionField, binade, signWeight]
  omega

theorem fractionField_lt (x : Binary64) : x.fractionField < binade :=
  Nat.mod_lt _ (by decide)

/-- The value of a datum in units. -/
theorem value_eq_units (x : Binary64) :
    x.value = x.sign * (units x.magnitude / 2 ^ 1074) := by
  have hbinade : (binade : ℚ) = 2 ^ 52 := by
    rw [binade]
    norm_num
  have hsplit : (2 : ℚ) ^ 1074 = 2 ^ 52 * 2 ^ 1022 := (pow_add 2 52 1022)
  have hfraction := x.fractionField_lt
  rw [value, magnitude_eq_fields, hsplit]
  congr 1
  split
  · next hzero =>
    have hleast : (2 : ℚ) ^ (-1022 : ℤ) = 1 / 2 ^ 1022 := by
      rw [zpow_neg, one_div]
      rfl
    rw [hzero, Nat.zero_mul, Nat.zero_add, units_of_lt hfraction, hleast]
    field_simp
  · next hpos =>
    obtain ⟨exponent, hexponent⟩ := Nat.exists_eq_succ_of_ne_zero hpos
    have hpower : (2 : ℚ) ^ (((exponent + 1 : ℕ) : ℤ) - 1023) = 2 ^ exponent / 2 ^ 1022 := by
      have hsame : ((exponent + 1 : ℕ) : ℤ) - 1023 = (exponent : ℤ) - (1022 : ℕ) := by
        push_cast
        omega
      rw [hsame, zpow_sub₀ two_ne_zero, zpow_natCast, zpow_natCast]
    rw [hexponent, units_of_fields exponent hfraction, hpower, Nat.cast_mul, Nat.cast_add, hbinade,
      Nat.cast_pow, Nat.cast_ofNat]
    field_simp

/-! ## Correct rounding -/

/-- The datum is the one that IEEE 754 rounds a number that is not negative to: to nearest, ties to
even. -/
structure CorrectlyRounded (q : ℚ) (x : Binary64) : Prop where
  isNegative_eq : x.isNegative = false
  isNaN_eq : x.isNaN = false
  isInfinite_iff : x.isInfinite = true ↔ 2 ^ 1024 - 2 ^ 970 ≤ q
  nearest : x.isFinite = true → ∀ y : Binary64, y.isFinite = true → |x.value - q| ≤ |y.value - q|
  even : x.isFinite = true → ∀ y : Binary64, y.isFinite = true →
    |y.value - q| = |x.value - q| → y.value ≠ x.value → x.fractionField % 2 = 0

/-- Half way from the greatest finite magnitude to the next. -/
theorem twiceHalfway_greatest :
    (twiceHalfway (infinity - 1) : ℚ) = 2 * ((2 ^ 1024 - 2 ^ 970) * 2 ^ 1074) := by
  have hbinade : 2 * binade = 2 ^ 53 := by decide
  have hgreatest : infinity - 1 = 2045 * binade + (2 * binade - 1) := by decide
  have hinfinity : infinity - 1 + 1 = 2045 * binade + 2 * binade := by decide
  have hunits : units (infinity - 1) = (2 ^ 53 - 1) * 2 ^ 2045 := by
    rw [hgreatest, units_mul_binade_add (.inl (by decide)) (by decide), hbinade]
  have hnext : units (infinity - 1 + 1) = 2 ^ 53 * 2 ^ 2045 := by
    rw [hinfinity, units_mul_binade_add (.inl (by decide)) le_rfl, hbinade]
  have hhigh : (2 : ℚ) ^ 1024 * 2 ^ 1074 = 2 ^ 53 * 2 ^ 2045 := by
    rw [← pow_add, ← pow_add]
  have hlow : 2 * ((2 : ℚ) ^ 970 * 2 ^ 1074) = 2 ^ 2045 := by
    rw [← pow_add, ← pow_succ']
  have hcast : ((2 ^ 53 - 1 : ℕ) : ℚ) = 2 ^ 53 - 1 := by norm_num
  rw [twiceHalfway, hunits, hnext, Nat.cast_add, Nat.cast_mul, Nat.cast_mul, hcast,
    sub_mul (2 ^ 1024), hhigh, mul_sub 2, hlow, Nat.cast_pow, Nat.cast_pow, Nat.cast_ofNat]
  generalize (2 : ℚ) ^ 2045 = step
  ring

theorem min_infinity_lt (magnitude : ℕ) : min magnitude infinity < signWeight :=
  (min_le_right _ _).trans_lt (by decide)

theorem fractionField_mod_two (x : Binary64) : x.fractionField % 2 = x.magnitude % 2 := by
  rw [magnitude_eq_fields, binade]
  omega

/-- Distances from the value of a datum, in units. -/
theorem abs_value_sub (x : Binary64) (q : ℚ) :
    |x.value - q| = |x.sign * units x.magnitude - q * 2 ^ 1074| / 2 ^ 1074 := by
  have hpos : (0 : ℚ) < 2 ^ 1074 := pow_pos two_pos _
  rw [value_eq_units, ← abs_of_pos hpos, ← abs_div, abs_of_pos hpos, sub_div,
    mul_div_cancel_right₀ _ hpos.ne', mul_div_assoc]

section

variable {q : ℚ} {magnitude : ℕ}

/-- The distance of the negative of a magnitude from a number that is not negative. -/
theorem abs_neg_units_sub (hq : 0 ≤ q) (magnitude : ℕ) :
    |-1 * (units magnitude : ℚ) - q| = units magnitude + q := by
  have hunits : (0 : ℚ) ≤ units magnitude := Nat.cast_nonneg _
  have hfar : -1 * (units magnitude : ℚ) - q = -(units magnitude + q) := by ring
  rw [hfar, abs_neg, abs_of_nonneg (add_nonneg hunits hq)]

theorem abs_units_zero_sub (hq : 0 ≤ q) : |(units 0 : ℚ) - q| = q := by
  rw [units_of_lt (by decide), Nat.cast_zero, zero_sub, abs_neg, abs_of_nonneg hq]

/-- Of all values, those of negative data included, none is nearer. -/
theorem RoundsTo.nearest_signed (hq : 0 ≤ q) (hrounds : RoundsTo q magnitude) (y : Binary64) :
    |units magnitude - q| ≤ |y.sign * units y.magnitude - q| ∧
    (|y.sign * units y.magnitude - q| ≤ |units magnitude - q| →
      y.sign * units y.magnitude = units magnitude ∨ magnitude % 2 = 0) := by
  cases hsign : y.isNegative with
  | false =>
      obtain ⟨hnear, htie⟩ := hrounds.nearest y.magnitude
      have hone : y.sign = 1 := by simp [sign, hsign]
      rw [hone, one_mul]
      refine ⟨hnear, fun hle => (htie hle).imp_left fun heq => by rw [heq]⟩
  | true =>
      have hminus : y.sign = -1 := by simp [sign, hsign]
      have hunits : (0 : ℚ) ≤ units y.magnitude := Nat.cast_nonneg _
      -- zero is between, and it is even
      obtain ⟨hnear, htie⟩ := hrounds.nearest 0
      rw [abs_units_zero_sub hq] at hnear htie
      rw [hminus, abs_neg_units_sub hq]
      refine ⟨by linarith, fun hle => .inr ?_⟩
      rcases htie (by linarith) with rfl | heven
      · rfl
      · exact heven

theorem correctlyRounded_of_roundsTo
    (hq : 0 ≤ q) (hrounds : RoundsTo (q * 2 ^ 1074) magnitude) :
    CorrectlyRounded q (ofMagnitude (min magnitude infinity)) := by
  have hpower : (0 : ℚ) < 2 ^ 1074 := pow_pos two_pos _
  have hscaled : 0 ≤ q * 2 ^ 1074 := mul_nonneg hq hpower.le
  have hle : min magnitude infinity ≤ infinity := min_le_right _ _
  have hmagnitude := magnitude_ofMagnitude (min_infinity_lt magnitude)
  have hnegative := isNegative_ofMagnitude (min_infinity_lt magnitude)
  have hfinite : (ofMagnitude (min magnitude infinity)).isFinite = true →
      min magnitude infinity = magnitude := by
    intro hfinite
    rw [isFinite, hmagnitude, decide_eq_true_eq] at hfinite
    omega
  have hsign : (ofMagnitude (min magnitude infinity)).sign = 1 := by
    simp [sign, hnegative]
  constructor
  · exact hnegative
  · rw [isNaN, hmagnitude, decide_eq_false_iff_not]
    exact hle.not_gt
  · have heven : (infinity - 1 + 1) % 2 = 0 := by decide
    have hsucc : infinity - 1 + 1 = infinity := by decide
    have hover := hrounds.succ_le_iff_of_odd heven
    rw [hsucc, twiceHalfway_greatest, mul_le_mul_iff_right₀ two_pos,
      mul_le_mul_iff_left₀ hpower] at hover
    rw [isInfinite, hmagnitude, decide_eq_true_eq, ← hover]
    omega
  · rintro hx y -
    have hnear := (hrounds.nearest_signed hscaled y).1
    rw [abs_value_sub, abs_value_sub, hmagnitude, hsign, one_mul, hfinite hx]
    exact div_le_div_of_nonneg_right hnear hpower.le
  · rintro hx y - htie hne
    rw [abs_value_sub, abs_value_sub, hmagnitude, hsign, one_mul, hfinite hx,
      div_left_inj' hpower.ne'] at htie
    rw [value_eq_units, value_eq_units, hmagnitude, hsign, one_mul, hfinite hx] at hne
    rw [fractionField_mod_two, hmagnitude, hfinite hx]
    refine ((hrounds.nearest_signed hscaled y).2 htie.le).resolve_left fun heq => hne ?_
    rw [← heq, mul_div_assoc]

end

theorem cast_shiftLeft_div (numerator denominator shift : ℕ) :
    ((numerator <<< shift : ℕ) / denominator : ℚ) = numerator / denominator * 2 ^ shift := by
  rw [Nat.shiftLeft_eq, Nat.cast_mul, Nat.cast_pow, Nat.cast_ofNat, mul_div_right_comm]

theorem nearestMagnitude_eq (numerator denominator : ℕ) :
    nearestMagnitude numerator denominator =
      min (unboundedMagnitude (numerator <<< 1074) denominator) infinity := rfl

theorem correctlyRounded_ofRatio (numerator : ℕ) {denominator : ℕ} (hpos : 0 < denominator) :
    CorrectlyRounded (numerator / denominator) (ofRatio numerator denominator) := by
  have hrounds := roundsTo_unboundedMagnitude (numerator <<< 1074) hpos
  rw [cast_shiftLeft_div] at hrounds
  rw [ofRatio, nearestMagnitude_eq]
  exact correctlyRounded_of_roundsTo (by positivity) hrounds

/-! ## The one datum -/

theorem eq_ofMagnitude {x : Binary64} (hx : x.isNegative = false) :
    x = ofMagnitude x.magnitude := by
  rw [isNegative, decide_eq_false_iff_not, Nat.not_le] at hx
  obtain ⟨bits⟩ := x
  rw [magnitude, Nat.mod_eq_of_lt hx, ofMagnitude, UInt64.ofNat_toNat]

/-- The value of a datum without a sign. -/
theorem value_of_isNegative_eq {x : Binary64} (hx : x.isNegative = false) :
    x.value = units x.magnitude / 2 ^ 1074 := by
  simp [value_eq_units, sign, hx]

theorem value_ofMagnitude {magnitude : ℕ} (hlow : magnitude < signWeight) :
    (ofMagnitude magnitude).value = units magnitude / 2 ^ 1074 := by
  rw [value_of_isNegative_eq (isNegative_ofMagnitude hlow), magnitude_ofMagnitude hlow]

theorem value_lt_of_magnitude_lt {x y : Binary64} (hx : x.isNegative = false)
    (hy : y.isNegative = false) (hlt : x.magnitude < y.magnitude) : x.value < y.value := by
  rw [value_of_isNegative_eq hx, value_of_isNegative_eq hy]
  apply div_lt_div_of_pos_right _ (pow_pos two_pos _)
  exact_mod_cast units_strictMono hlt

namespace CorrectlyRounded

variable {q r : ℚ} {x y : Binary64}

theorem isFinite_iff (hx : CorrectlyRounded q x) :
    x.isFinite = true ↔ q < 2 ^ 1024 - 2 ^ 970 := by
  have hnan := hx.isNaN_eq
  have hinfinite := hx.isInfinite_iff
  rw [isNaN, decide_eq_false_iff_not, Nat.not_lt] at hnan
  rw [isInfinite, decide_eq_true_eq] at hinfinite
  rw [isFinite, decide_eq_true_eq, ← not_le (b := q), ← hinfinite]
  exact hnan.lt_iff_ne

theorem eq_infinity_iff (hx : CorrectlyRounded q x) :
    x = ⟨0x7FF0000000000000⟩ ↔ 2 ^ 1024 - 2 ^ 970 ≤ q := by
  rw [← hx.isInfinite_iff]
  constructor
  · rintro rfl
    decide
  · intro hinfinite
    rw [eq_ofMagnitude hx.isNegative_eq, of_decide_eq_true hinfinite]
    decide

/-- Of two data that are equally near, and both even, the one between them is nearer. -/
theorem not_magnitude_lt (hx : CorrectlyRounded q x) (hy : CorrectlyRounded q y)
    (hfinite : x.isFinite = true) (hother : y.isFinite = true) : ¬ x.magnitude < y.magnitude := by
  intro hlt
  have hvalues := value_lt_of_magnitude_lt hx.isNegative_eq hy.isNegative_eq hlt
  have hequal : |y.value - q| = |x.value - q| :=
    le_antisymm (hy.nearest hother x hfinite) (hx.nearest hfinite y hother)
  have heven := hx.even hfinite y hother hequal hvalues.ne'
  have hparity := hy.even hother x hfinite hequal.symm hvalues.ne
  rw [fractionField_mod_two] at heven hparity
  have hbetween : x.magnitude + 1 < y.magnitude := by omega
  have hgreatest : y.magnitude < infinity := of_decide_eq_true hother
  have hlow : x.magnitude + 1 < signWeight :=
    (hbetween.trans hgreatest).trans_le (by decide)
  have hmiddle := magnitude_ofMagnitude hlow
  have hsign := isNegative_ofMagnitude hlow
  have hnear : (ofMagnitude (x.magnitude + 1)).isFinite = true := by
    rw [isFinite, hmiddle, decide_eq_true_eq]
    exact hbetween.trans hgreatest
  have hbelow := value_lt_of_magnitude_lt hx.isNegative_eq hsign (by omega)
  have habove := value_lt_of_magnitude_lt hsign hy.isNegative_eq (by omega)
  have hhigh := (abs_sub_le_iff_below_halfway hbelow).mp (hx.nearest hfinite _ hnear)
  have hlowest := (abs_sub_le_iff_above_halfway habove).mp (hy.nearest hother _ hnear)
  linarith

theorem unique (hx : CorrectlyRounded q x) (hy : CorrectlyRounded q y) : x = y := by
  have hmagnitude : x.magnitude = y.magnitude := by
    by_cases hfinite : x.isFinite = true
    · have hother : y.isFinite = true := hy.isFinite_iff.mpr (hx.isFinite_iff.mp hfinite)
      have hlow := hx.not_magnitude_lt hy hfinite hother
      have hhigh := hy.not_magnitude_lt hx hother hfinite
      omega
    · have hlarge := not_lt.mp (mt hx.isFinite_iff.mpr hfinite)
      have hinfinite := hx.isInfinite_iff.mpr hlarge
      have hother := hy.isInfinite_iff.mpr hlarge
      rw [isInfinite, decide_eq_true_eq] at hinfinite hother
      rw [hinfinite, hother]
  rw [eq_ofMagnitude hx.isNegative_eq, eq_ofMagnitude hy.isNegative_eq, hmagnitude]

theorem exists_roundsTo (hq : 0 ≤ q) (hx : CorrectlyRounded q x) :
    ∃ magnitude, RoundsTo (q * 2 ^ 1074) magnitude ∧ x = ofMagnitude (min magnitude infinity) := by
  obtain ⟨numerator, hnumerator⟩ := Int.eq_ofNat_of_zero_le (Rat.num_nonneg.mpr hq)
  have hrounds := roundsTo_unboundedMagnitude (numerator <<< 1074) q.den_pos
  rw [cast_shiftLeft_div, ← Int.cast_natCast numerator, ← hnumerator, Rat.num_div_den] at hrounds
  exact ⟨_, hrounds, hx.unique (correctlyRounded_of_roundsTo hq hrounds)⟩

/-- Half of the least positive value goes to zero, which is even. -/
theorem eq_zero_iff (hq : 0 ≤ q) (hx : CorrectlyRounded q x) :
    x = ⟨0⟩ ↔ q ≤ 1 / 2 ^ 1075 := by
  obtain ⟨magnitude, hrounds, rfl⟩ := hx.exists_roundsTo hq
  have hzero : ofMagnitude (min magnitude infinity) = ⟨0⟩ ↔ magnitude ≤ 0 := by
    constructor
    · intro heq
      have hmagnitude := magnitude_ofMagnitude (min_infinity_lt magnitude)
      rw [heq] at hmagnitude
      have hleast : (⟨0⟩ : Binary64).magnitude = 0 := by decide
      have hinfinity : 0 < infinity := by decide
      omega
    · intro hle
      rw [Nat.le_zero.mp hle]
      decide
  have hhalfway : twiceHalfway 0 = 1 := by
    rw [twiceHalfway, units_of_lt (by decide), units_of_lt (by decide)]
  rw [hzero, hrounds.le_iff_of_even rfl, hhalfway, Nat.cast_one, le_div_iff₀ (pow_pos two_pos _),
    pow_succ' (2 : ℚ) 1074, mul_left_comm]

end CorrectlyRounded

/-! ## Order -/

/-- The place of a datum among the numbers and the two infinities. -/
def extended (x : Binary64) : WithBot (WithTop ℚ) :=
  if x.isInfinite then if x.isNegative then ⊥ else ⊤ else (x.value : WithTop ℚ)

theorem extended_ofMagnitude_mono {low high : ℕ} (hle : low ≤ high) (hhigh : high ≤ infinity) :
    (ofMagnitude low).extended ≤ (ofMagnitude high).extended := by
  have hsign : infinity < signWeight := by decide
  have hlowest := (hle.trans hhigh).trans_lt hsign
  have hhighest := hhigh.trans_lt hsign
  have hnegative := isNegative_ofMagnitude hhighest
  have hmagnitude := magnitude_ofMagnitude hhighest
  by_cases htop : high = infinity
  · have hinfinite : (ofMagnitude high).isInfinite = true := by
      rw [isInfinite, hmagnitude, decide_eq_true_eq, htop]
    have htopmost : (ofMagnitude high).extended = ⊤ := by
      simp [extended, hinfinite, hnegative]
    rw [htopmost]
    exact le_top
  · have hfinite : (ofMagnitude high).isInfinite = false := by
      simp [isInfinite, hmagnitude, htop]
    have hother : (ofMagnitude low).isInfinite = false := by
      rw [isInfinite, magnitude_ofMagnitude hlowest, decide_eq_false_iff_not]
      omega
    have hunits : (units low : ℚ) ≤ units high := by
      exact_mod_cast units_strictMono.monotone hle
    have hvalues : (ofMagnitude low).value ≤ (ofMagnitude high).value := by
      rw [value_ofMagnitude hlowest, value_ofMagnitude hhighest]
      exact div_le_div_of_nonneg_right hunits (pow_pos two_pos _).le
    rw [extended, extended, hfinite, hother, if_neg Bool.false_ne_true, if_neg Bool.false_ne_true]
    exact_mod_cast hvalues

theorem CorrectlyRounded.extended_mono {q r : ℚ} {x y : Binary64} (hq : 0 ≤ q) (hle : q ≤ r)
    (hx : CorrectlyRounded q x) (hy : CorrectlyRounded r y) : x.extended ≤ y.extended := by
  obtain ⟨low, hlow, rfl⟩ := hx.exists_roundsTo hq
  obtain ⟨high, hhigh, rfl⟩ := hy.exists_roundsTo (hq.trans hle)
  have hmagnitude := hlow.le_of_le hhigh (mul_le_mul_of_nonneg_right hle (pow_pos two_pos _).le)
  exact extended_ofMagnitude_mono (min_le_min_right _ hmagnitude) (min_le_right _ _)

end LoxLexer.Binary64
