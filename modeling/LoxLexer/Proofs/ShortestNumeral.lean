import LoxLexer.Number.Shortest
import LoxLexer.Proofs.NumberLiterals

/-!
# The shortest numeral

The search for the shortest numeral tests two multiples of each power of ten, the ones next to the
value on either side.  If neither rounds to the magnitude, no multiple does, since all numbers
between one that does and the value itself do.  So the search stops at the coarsest power of ten
that it can stop at (`not_contains_coarser`), and no decimal with fewer digits reads back
(`length_toDigits_le`).

What the search finds is written out with the digits of a numeral, and the scanner reads it as that
numeral and nothing else.
-/

namespace LoxLexer.Binary64

theorem quantum_eq : quantum = 5 ^ 1074 := by
  decide +kernel

theorem quantum_pos : 0 < quantum := by
  decide +kernel

/-- The fractions that round to a magnitude, by comparisons of natural numbers. -/
theorem roundsTo_div_iff {below x step : ℕ} (hstep : 0 < step) :
    RoundsTo (x / step) (below + 1) ↔
      (twiceHalfway below * step < 2 * x ∨
        twiceHalfway below * step = 2 * x ∧ (below + 1) % 2 = 0) ∧
      (2 * x < twiceHalfway (below + 1) * step ∨
        2 * x = twiceHalfway (below + 1) * step ∧ (below + 1) % 2 = 0) := by
  have hcast : (0 : ℚ) < step := by exact_mod_cast hstep
  have htwice : 2 * (x / step : ℚ) = (2 * x : ℕ) / step := by
    push_cast
    ring
  constructor
  · intro hrounds
    have hlow := hrounds.low below rfl
    have hhigh := hrounds.high
    rw [htwice, lt_div_iff₀ hcast, eq_div_iff hcast.ne'] at hlow
    rw [htwice, div_lt_iff₀ hcast, div_eq_iff hcast.ne'] at hhigh
    exact ⟨by exact_mod_cast hlow, by exact_mod_cast hhigh⟩
  · rintro ⟨hlow, hhigh⟩
    constructor
    · intro other hother
      obtain rfl := Nat.succ.inj hother
      rw [htwice, lt_div_iff₀ hcast, eq_div_iff hcast.ne']
      exact_mod_cast hlow
    · rw [htwice, div_lt_iff₀ hcast, div_eq_iff hcast.ne']
      exact_mod_cast hhigh

section

variable {magnitude : ℕ}

/-- The interval around a magnitude holds the numbers that round to it. -/
theorem contains_roundingInterval_iff (hpos : 0 < magnitude) {x : ℕ} :
    (roundingInterval magnitude).contains x = true ↔ RoundsTo (x / quantum) magnitude := by
  obtain ⟨below, rfl⟩ : ∃ below, magnitude = below + 1 := Nat.exists_eq_succ_of_ne_zero hpos.ne'
  rw [roundsTo_div_iff quantum_pos, twiceHalfway, twiceHalfway]
  simp only [RoundingInterval.contains, roundingInterval, Nat.add_sub_cancel, decide_eq_true_eq]
  generalize (units below + units (below + 1)) * quantum = low
  generalize (units (below + 1) + units (below + 1 + 1)) * quantum = high
  split <;> simp only [Bool.and_eq_true, decide_eq_true_eq] <;> omega

theorem contains_value (hpos : 0 < magnitude) :
    (roundingInterval magnitude).contains (roundingInterval magnitude).value = true := by
  have hquantum : (quantum : ℚ) ≠ 0 := by exact_mod_cast quantum_pos.ne'
  rw [contains_roundingInterval_iff hpos, roundingInterval, Nat.cast_mul,
    mul_div_cancel_right₀ _ hquantum]
  exact .self magnitude

end

/-! ## The search -/

theorem two_pow_le_ten_pow (bits : ℕ) : 2 ^ bits ≤ 10 ^ (bits * 28 / 93 + 1) := by
  have hexponent : 28 * bits ≤ (bits * 28 / 93 + 1) * 93 := by omega
  have hpowers : (2 ^ bits) ^ 93 ≤ (10 ^ (bits * 28 / 93 + 1)) ^ 93 :=
    calc (2 ^ bits) ^ 93 = (2 ^ 93) ^ bits := by rw [← Nat.pow_mul, ← Nat.pow_mul, Nat.mul_comm]
      _ ≤ (10 ^ 28) ^ bits := Nat.pow_le_pow_left (by decide) bits
      _ = 10 ^ (28 * bits) := (Nat.pow_mul ..).symm
      _ ≤ 10 ^ ((bits * 28 / 93 + 1) * 93) := Nat.pow_le_pow_right (by decide) hexponent
      _ = (10 ^ (bits * 28 / 93 + 1)) ^ 93 := Nat.pow_mul ..
  exact (Nat.pow_le_pow_iff_left (by decide)).mp hpowers

namespace RoundingInterval

variable {interval : RoundingInterval}

theorem contains_of_between {low high x : ℕ} (hlow : interval.contains low = true)
    (hhigh : interval.contains high = true) (hleft : low ≤ x) (hright : x ≤ high) :
    interval.contains x = true := by
  cases hclosed : interval.closed with
  | false =>
      simp only [contains, hclosed, Bool.false_eq_true, if_false, Bool.and_eq_true,
        decide_eq_true_eq] at *
      omega
  | true =>
      simp only [contains, hclosed, if_true, Bool.and_eq_true, decide_eq_true_eq] at *
      omega

theorem contains_of_nearestMultiple? {step coefficient : ℕ}
    (hsome : interval.nearestMultiple? step = some coefficient) :
    interval.contains (coefficient * step) = true := by
  simp only [nearestMultiple?] at hsome
  split at hsome
  · next hbelow habove =>
    rw [← Option.some.inj hsome]
    split
    · exact hbelow
    · exact habove
  · next hbelow _ =>
    rwa [← Option.some.inj hsome]
  · next habove =>
    rwa [← Option.some.inj hsome]
  · cases hsome

/-- If neither neighbour of the value will do, then no multiple will. -/
theorem not_contains_of_nearestMultiple? {step : ℕ} (hstep : 0 < step)
    (hvalue : interval.contains interval.value = true)
    (hnone : interval.nearestMultiple? step = none) (coefficient : ℕ) :
    interval.contains (coefficient * step) = false := by
  have hneighbours : interval.contains (interval.value / step * step) = false ∧
      interval.contains ((interval.value / step + 1) * step) = false := by
    simp only [nearestMultiple?] at hnone
    split at hnone
    · cases hnone
    · cases hnone
    · cases hnone
    · next hbelow habove => exact ⟨hbelow, habove⟩
  rw [Bool.eq_false_iff]
  intro hcontains
  rcases le_or_gt (coefficient * step) interval.value with hle | hgt
  · have hquotient : coefficient ≤ interval.value / step :=
      (Nat.le_div_iff_mul_le hstep).mpr hle
    have hbelow := contains_of_between hcontains hvalue
      (Nat.mul_le_mul_right step hquotient) (Nat.div_mul_le_self _ _)
    rw [hneighbours.1] at hbelow
    cases hbelow
  · have hquotient : interval.value / step + 1 ≤ coefficient :=
      (Nat.div_lt_iff_lt_mul hstep).mpr hgt
    have hnext : interval.value ≤ (interval.value / step + 1) * step :=
      (Nat.lt_mul_of_div_lt (Nat.lt_succ_self _) hstep).le
    have habove := contains_of_between hvalue hcontains hnext (Nat.mul_le_mul_right step hquotient)
    rw [hneighbours.2] at habove
    cases habove

theorem contains_coarsest (hvalue : interval.contains interval.value = true) (level : ℕ) :
    interval.contains
      ((interval.coarsest level).coefficient * 10 ^ (interval.coarsest level).level) = true := by
  induction level with
  | zero => simpa [coarsest] using hvalue
  | succ level ih =>
      unfold coarsest
      split
      · next coefficient hsome => exact contains_of_nearestMultiple? hsome
      · exact ih

theorem not_contains_above_coarsest (hvalue : interval.contains interval.value = true)
    {level above : ℕ} (habove : (interval.coarsest level).level < above) (hle : above ≤ level)
    (coefficient : ℕ) : interval.contains (coefficient * 10 ^ above) = false := by
  induction level with
  | zero => exact absurd (habove.trans_le hle) (Nat.not_lt_zero _)
  | succ level ih =>
      unfold coarsest at habove
      split at habove
      · exact absurd (habove.trans_le hle) (lt_irrefl _)
      · next hnone =>
        rcases Nat.lt_or_eq_of_le hle with hlt | rfl
        · exact ih habove (Nat.le_of_lt_succ hlt)
        · exact not_contains_of_nearestMultiple? (Nat.pow_pos (by decide)) hvalue hnone coefficient

theorem not_contains_of_topLevel_le {level coefficient : ℕ} (hlevel : interval.topLevel ≤ level)
    (hpos : 0 < coefficient) : interval.contains (coefficient * 10 ^ level) = false := by
  have hhigh : interval.twiceHigh < 10 ^ level :=
    calc interval.twiceHigh < 2 ^ (interval.twiceHigh.log2 + 1) := Nat.lt_log2_self
      _ ≤ 10 ^ interval.topLevel := two_pow_le_ten_pow _
      _ ≤ 10 ^ level := Nat.pow_le_pow_right (by decide) hlevel
  have hmultiple : 10 ^ level ≤ coefficient * 10 ^ level := Nat.le_mul_of_pos_left _ hpos
  rw [Bool.eq_false_iff]
  unfold contains
  split <;> simp only [ne_eq, Bool.and_eq_true, decide_eq_true_eq] <;> omega

theorem not_contains_coarser (hvalue : interval.contains interval.value = true)
    {level coefficient : ℕ} (hlevel : (interval.coarsest interval.topLevel).level < level)
    (hpos : 0 < coefficient) : interval.contains (coefficient * 10 ^ level) = false := by
  rcases le_or_gt level interval.topLevel with hle | hgt
  · exact not_contains_above_coarsest hvalue hlevel hle coefficient
  · exact not_contains_of_topLevel_le hgt.le hpos

end RoundingInterval

/-- What the search finds for a magnitude. -/
def shortestDecimal (magnitude : ℕ) : Decimal :=
  let interval := roundingInterval magnitude
  interval.coarsest interval.topLevel

/-- The number that a decimal stands for. -/
def Decimal.value (decimal : Decimal) : ℚ :=
  decimal.coefficient * 10 ^ decimal.level / 10 ^ 1074

theorem ten_pow_eq : (10 : ℚ) ^ 1074 = 2 ^ 1074 * quantum := by
  have hbase : (10 : ℚ) = 2 * 5 := by norm_num
  rw [quantum_eq, hbase, mul_pow, Nat.cast_pow, Nat.cast_ofNat]

theorem Decimal.value_mul_two_pow (decimal : Decimal) :
    decimal.value * 2 ^ 1074 = (decimal.coefficient * 10 ^ decimal.level : ℕ) / quantum := by
  have hpower : (2 : ℚ) ^ 1074 ≠ 0 := pow_ne_zero _ two_ne_zero
  rw [value, ten_pow_eq, mul_comm (2 ^ 1074) (quantum : ℚ), div_mul_eq_div_div,
    div_mul_cancel₀ _ hpower, Nat.cast_mul, Nat.cast_pow, Nat.cast_ofNat]

/-- A decimal with any power of ten, in units. -/
theorem mul_zpow_mul_two_pow (digits : ℕ) (exponent : ℤ) :
    digits * (10 : ℚ) ^ exponent * 2 ^ 1074 = digits * 10 ^ (exponent + 1074) / quantum := by
  have hquantum : (quantum : ℚ) ≠ 0 := by exact_mod_cast quantum_pos.ne'
  have hsplit : (10 : ℚ) ^ (exponent + 1074) = 10 ^ exponent * 10 ^ 1074 :=
    zpow_add₀ (by norm_num) exponent (1074 : ℕ)
  rw [hsplit, ten_pow_eq, eq_div_iff hquantum, mul_assoc, mul_assoc]

section

variable {magnitude : ℕ}

theorem roundsTo_shortestDecimal (hpos : 0 < magnitude) :
    RoundsTo ((shortestDecimal magnitude).value * 2 ^ 1074) magnitude := by
  rw [Decimal.value_mul_two_pow, ← contains_roundingInterval_iff hpos]
  exact RoundingInterval.contains_coarsest (contains_value hpos) _

theorem not_roundsTo_coarser (hpos : 0 < magnitude) {level coefficient : ℕ}
    (hlevel : (shortestDecimal magnitude).level < level) (hcoefficient : 0 < coefficient) :
    ¬ RoundsTo ((coefficient * 10 ^ level : ℕ) / quantum) magnitude := by
  rw [← contains_roundingInterval_iff hpos,
    RoundingInterval.not_contains_coarser (contains_value hpos) hlevel hcoefficient]
  exact Bool.false_ne_true

theorem not_roundsTo_zero (hpos : 0 < magnitude) : ¬ RoundsTo 0 magnitude := by
  intro hrounds
  have hunits : units 0 = 0 := units_of_lt (by decide)
  have hzero : RoundsTo 0 0 := by
    have hself := RoundsTo.self 0
    rwa [hunits, Nat.cast_zero] at hself
  exact hpos.ne' (hrounds.unique hzero)

/-- A decimal that has fewer digits and is on no coarser grid lies below the power of ten with as
many digits as the shortest decimal.  The power lies between the two, and on a coarser grid. -/
theorem exists_coarser {shortest : Decimal} {digits : ℕ} {level : ℤ}
    (hlevel : level ≤ shortest.level)
    (hlength : (Nat.toDigits 10 digits).length < (Nat.toDigits 10 shortest.coefficient).length) :
    ∃ coarser > shortest.level,
      digits * (10 : ℚ) ^ level ≤ 10 ^ coarser ∧
      (10 : ℚ) ^ coarser ≤ shortest.coefficient * 10 ^ shortest.level := by
  obtain ⟨rest, hrest⟩ := Nat.exists_eq_succ_of_ne_zero (Nat.ne_of_gt (Nat.zero_lt_of_lt hlength))
  have hpos : 0 < rest := by
    have hdigits : 0 < (Nat.toDigits 10 digits).length := Nat.length_toDigits_pos
    omega
  have hbelow : digits < 10 ^ rest :=
    (Nat.length_toDigits_le_iff (by decide) hpos).mp (by omega)
  have habove : 10 ^ rest ≤ shortest.coefficient := by
    rw [← Nat.not_lt, ← Nat.length_toDigits_le_iff (by decide) hpos]
    omega
  refine ⟨rest + shortest.level, Nat.lt_add_of_pos_left hpos, ?_, ?_⟩
  · have hgrid : (10 : ℚ) ^ level ≤ 10 ^ shortest.level := by
      rw [← zpow_natCast]
      exact zpow_le_zpow_right₀ (by norm_num) hlevel
    have hdigits : (digits : ℚ) ≤ 10 ^ rest := by exact_mod_cast hbelow.le
    calc digits * (10 : ℚ) ^ level
        ≤ 10 ^ rest * 10 ^ shortest.level :=
          mul_le_mul hdigits hgrid (zpow_nonneg (by norm_num) _) (by positivity)
      _ = 10 ^ (rest + shortest.level) := (pow_add ..).symm
  · rw [pow_add]
    exact mul_le_mul_of_nonneg_right (by exact_mod_cast habove) (by positivity)

/-- No decimal with fewer digits rounds to the magnitude. -/
theorem length_toDigits_le (hpos : 0 < magnitude) {digits : ℕ} {exponent : ℤ}
    (hrounds : RoundsTo (digits * (10 : ℚ) ^ exponent * 2 ^ 1074) magnitude) :
    (Nat.toDigits 10 (shortestDecimal magnitude).coefficient).length ≤
      (Nat.toDigits 10 digits).length := by
  have hquantum : (0 : ℚ) < quantum := by exact_mod_cast quantum_pos
  have hdigits : 0 < digits := by
    rw [Nat.pos_iff_ne_zero]
    rintro rfl
    rw [Nat.cast_zero, zero_mul, zero_mul] at hrounds
    exact not_roundsTo_zero hpos hrounds
  rw [mul_zpow_mul_two_pow] at hrounds
  rcases le_or_gt (exponent + 1074) (shortestDecimal magnitude).level with hle | hgt
  · by_contra hlt
    obtain ⟨coarser, hcoarser, hlow, hhigh⟩ := exists_coarser hle (Nat.not_le.mp hlt)
    have hshortest := roundsTo_shortestDecimal hpos
    rw [Decimal.value_mul_two_pow, Nat.cast_mul, Nat.cast_pow, Nat.cast_ofNat] at hshortest
    apply not_roundsTo_coarser hpos hcoarser Nat.one_pos
    rw [Nat.one_mul, Nat.cast_pow, Nat.cast_ofNat]
    exact hrounds.of_between hshortest (div_le_div_of_nonneg_right hlow hquantum.le)
      (div_le_div_of_nonneg_right hhigh hquantum.le)
  · obtain ⟨level, hlevel⟩ := Int.eq_ofNat_of_zero_le ((Int.natCast_nonneg _).trans hgt.le)
    rw [hlevel, zpow_natCast] at hrounds
    rw [hlevel, Nat.cast_lt] at hgt
    refine absurd ?_ (not_roundsTo_coarser hpos hgt hdigits)
    rwa [Nat.cast_mul, Nat.cast_pow, Nat.cast_ofNat]

end

/-! ## Writing it out -/

theorem Decimal.wellFormed_numeral (decimal : Decimal) : decimal.numeral.WellFormed := by
  have hdigits : ∀ c ∈ Nat.toDigits 10 decimal.coefficient, c.isDigit = true :=
    fun _ hc => Nat.isDigit_of_mem_toDigits (by decide) (by decide) hc
  have hzeros : ∀ count, ∀ c ∈ List.replicate count '0', c.isDigit = true := by
    intro count c hc
    rw [List.eq_of_mem_replicate hc]
    rfl
  simp only [numeral]
  split
  · refine ⟨?_, ?_, by simp⟩
    · exact List.append_ne_nil_of_left_ne_nil Nat.toDigits_ne_nil _
    · exact List.forall_mem_append.mpr ⟨hdigits, hzeros _⟩
  · next hlevel =>
    have hpadded := List.forall_mem_append.mpr
      ⟨hzeros (1074 - decimal.level + 1 - (Nat.toDigits 10 decimal.coefficient).length), hdigits⟩
    refine ⟨?_, fun c hc => hpadded c (List.mem_of_mem_take hc),
      fun c hc => hpadded c (List.mem_of_mem_drop hc)⟩
    -- the padding leaves one digit before the point
    rw [← List.length_pos_iff, List.length_take, List.length_append, List.length_replicate]
    omega

theorem Decimal.numerator_div_denominator (decimal : Decimal) :
    (decimal.numeral.numerator / decimal.numeral.denominator : ℚ) = decimal.value := by
  have hten : ∀ exponent, (10 : ℚ) ^ exponent ≠ 0 := fun _ => pow_ne_zero _ (by norm_num)
  simp only [numeral, value]
  generalize 1074 = most
  split
  · next hlevel =>
    obtain ⟨zeros, hzeros⟩ := Nat.exists_eq_add_of_le hlevel
    rw [Numeral.numerator, Numeral.denominator, List.append_nil, Nat.ofDigitChars_append,
      Nat.ofDigitChars_ten_toDigits, Nat.ofDigitChars_replicate_zero, hzeros,
      Nat.add_sub_cancel_left, pow_add, eq_div_iff (hten most), Nat.cast_mul, Nat.cast_pow,
      Nat.cast_ofNat]
    have hone : (Nat.pow 10 ([] : List Char).length : ℚ) = 1 := by simp
    rw [hone]
    ring
  · next hlevel =>
    obtain ⟨places, rfl⟩ := Nat.exists_eq_add_of_le (Nat.le_of_not_le hlevel)
    rw [Nat.add_sub_cancel_left]
    generalize hzeros : places + 1 - (Nat.toDigits 10 decimal.coefficient).length = zeros
    have hlength : (List.drop ((List.replicate zeros '0' ++
        Nat.toDigits 10 decimal.coefficient).length - places)
          (List.replicate zeros '0' ++ Nat.toDigits 10 decimal.coefficient)).length = places := by
      rw [List.length_drop, List.length_append, List.length_replicate]
      omega
    rw [Numeral.numerator, Numeral.denominator, List.take_append_drop, hlength,
      Nat.ofDigitChars_append, Nat.ofDigitChars_replicate_zero, Nat.mul_zero,
      Nat.ofDigitChars_ten_toDigits, pow_add]
    have hplaces : (Nat.pow 10 places : ℚ) = 10 ^ places := by exact_mod_cast rfl
    rw [hplaces, mul_comm (10 ^ decimal.level), mul_div_mul_right _ _ (hten _)]

/-- The text denotes a decimal, and none with fewer digits rounds to the datum. -/
def FewestDigits (text : List Char) (x : Binary64) : Prop :=
  ∃ (digits : ℕ) (exponent : ℤ), exactValue text = digits * (10 : ℚ) ^ exponent ∧
    ∀ (other : ℕ) (power : ℤ), CorrectlyRounded (other * (10 : ℚ) ^ power) x →
      (Nat.toDigits 10 digits).length ≤ (Nat.toDigits 10 other).length

theorem Decimal.fewestDigits {magnitude : ℕ} (hpos : 0 < magnitude)
    (hfinite : magnitude < infinity) :
    FewestDigits (shortestDecimal magnitude).numeral.chars (ofMagnitude magnitude) := by
  have hvalue := (shortestDecimal magnitude).numerator_div_denominator
  rw [Numeral.numerator_div_denominator (wellFormed_numeral _)] at hvalue
  have hlevel : (10 : ℚ) ^ (((shortestDecimal magnitude).level : ℤ) - 1074) =
      10 ^ (shortestDecimal magnitude).level / 10 ^ 1074 := by
    rw [zpow_sub₀ (by norm_num), zpow_natCast]
    rfl
  refine ⟨_, _, (hvalue.trans (mul_div_assoc ..)).trans (congrArg _ hlevel.symm), ?_⟩
  intro other power hother
  obtain ⟨nearest, hrounds, heq⟩ := hother.exists_roundsTo (by positivity)
  have hmagnitude := congrArg Binary64.magnitude heq
  rw [magnitude_ofMagnitude (hfinite.trans (by decide)),
    magnitude_ofMagnitude (min_infinity_lt nearest)] at hmagnitude
  obtain rfl : magnitude = nearest := by omega
  exact length_toDigits_le hpos hrounds

/-- The shortest numeral reads back, and no decimal with fewer digits does. -/
theorem shortestNumeral_spec {magnitude : ℕ} (hfinite : magnitude < infinity) :
    (shortestNumeral magnitude).WellFormed ∧
    (shortestNumeral magnitude).toBinary64 = ofMagnitude magnitude ∧
    FewestDigits (shortestNumeral magnitude).chars (ofMagnitude magnitude) := by
  rcases Nat.eq_zero_or_pos magnitude with rfl | hpos
  · have hnumeral : shortestNumeral 0 = ⟨['0'], []⟩ := if_pos rfl
    have hdigits : ∀ other, (Nat.toDigits 10 0).length ≤ (Nat.toDigits 10 other).length :=
      fun _ => Nat.length_toDigits_pos
    rw [hnumeral]
    refine ⟨⟨by simp, List.forall_mem_singleton.mpr rfl, by simp⟩, by decide +kernel, 0, 0, ?_,
      fun other _ _ => hdigits other⟩
    decide +kernel
  · have hnumeral : shortestNumeral magnitude = (shortestDecimal magnitude).numeral :=
      if_neg hpos.ne'
    have hwell := (shortestDecimal magnitude).wellFormed_numeral
    have hrounds := roundsTo_shortestDecimal hpos
    have hread := Numeral.correctlyRounded_toBinary64 hwell
    have hvalue := (shortestDecimal magnitude).numerator_div_denominator
    rw [Numeral.numerator_div_denominator hwell] at hvalue
    rw [← hvalue] at hrounds
    have hrounded := correctlyRounded_of_roundsTo (exactValue_nonneg _) hrounds
    rw [Nat.min_eq_left hfinite.le] at hrounded
    rw [hnumeral]
    exact ⟨hwell, hread.unique hrounded, Decimal.fewestDigits hpos hfinite⟩

end LoxLexer.Binary64
