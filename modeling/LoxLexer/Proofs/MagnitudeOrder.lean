import LoxLexer.Number.Rounding
import Mathlib

/-!
# Magnitudes in order

A magnitude is its scale and its significand, written one behind the other.  Raising it by one adds
one to the significand; at the end of a binade the significand is halved and the scale raised, which
leaves the value as it is.  So the units of a magnitude grow with it, by `2 ^ scale` to the next.

A number rounds to the magnitude next to it.  `RoundsTo` says so by the two numbers half way to the
neighbouring magnitudes, which belong to the even one.  These intervals lie side by side, so each
number rounds to one magnitude only, and greater numbers to greater ones.
-/

namespace LoxLexer.Binary64

/-! ## Scale and significand -/

theorem units_of_lt {magnitude : ℕ} (hlow : magnitude < binade) : units magnitude = magnitude := by
  simp [units, significand, scale, hlow, Nat.div_eq_of_lt hlow]

/-- A magnitude behind the first binade, by the fields of its word. -/
theorem units_of_fields (exponent : ℕ) {fraction : ℕ} (hfraction : fraction < binade) :
    units ((exponent + 1) * binade + fraction) = (binade + fraction) * 2 ^ exponent := by
  have hpos : 0 < binade := by decide
  have hdiv : ((exponent + 1) * binade + fraction) / binade = exponent + 1 := by
    rw [Nat.add_comm, Nat.add_mul_div_right _ _ hpos, Nat.div_eq_of_lt hfraction, Nat.zero_add]
  have hmod : ((exponent + 1) * binade + fraction) % binade = fraction := by
    rw [Nat.add_comm, Nat.add_mul_mod_self_right, Nat.mod_eq_of_lt hfraction]
  have hhigh : ¬ (exponent + 1) * binade + fraction < binade := by
    rw [Nat.succ_mul]
    omega
  rw [units, significand, if_neg hhigh, scale, hdiv, hmod, Nat.add_sub_cancel, Nat.shiftLeft_eq]

/-- The units of a magnitude that is put together from a scale and a significand.  A significand
that has reached the end of its binade makes the first magnitude of the next. -/
theorem units_mul_binade_add
    {shift digits : ℕ} (hlow : binade ≤ digits ∨ shift = 0) (hhigh : digits ≤ 2 * binade) :
    units (shift * binade + digits) = digits * 2 ^ shift := by
  have hpos : 0 < binade := by decide
  by_cases hfirst : digits < binade
  · obtain rfl : shift = 0 := hlow.resolve_left (Nat.not_le.mpr hfirst)
    rw [Nat.zero_mul, Nat.zero_add, units_of_lt hfirst, Nat.pow_zero, Nat.mul_one]
  · obtain ⟨fraction, rfl⟩ := Nat.exists_eq_add_of_le (Nat.not_lt.mp hfirst)
    by_cases hinside : fraction < binade
    · have hfields := units_of_fields shift hinside
      rwa [Nat.succ_mul, Nat.add_assoc] at hfields
    · obtain rfl : fraction = binade := by omega
      have hfields := units_of_fields (shift + 1) hpos
      have hmagnitude : shift * binade + (binade + binade) = (shift + 1 + 1) * binade + 0 := by
        ring
      rw [hmagnitude, hfields]
      ring

theorem scale_mul_binade_add_significand (magnitude : ℕ) :
    scale magnitude * binade + significand magnitude = magnitude := by
  have hsplit := Nat.div_add_mod' magnitude binade
  unfold scale significand
  split
  · next hlow => simp [Nat.div_eq_of_lt hlow]
  · next hhigh =>
    have hpos : 1 ≤ magnitude / binade := Nat.div_pos (by omega) (by decide)
    obtain ⟨above, habove⟩ := Nat.exists_eq_add_of_le' hpos
    rw [habove, Nat.succ_mul, Nat.add_assoc] at hsplit
    rw [habove, Nat.add_sub_cancel, hsplit]

theorem significand_lt (magnitude : ℕ) : significand magnitude < 2 * binade := by
  have hmod : magnitude % binade < binade := Nat.mod_lt _ (by decide)
  unfold significand
  split <;> omega

theorem binade_le_significand_or (magnitude : ℕ) :
    binade ≤ significand magnitude ∨ scale magnitude = 0 := by
  unfold significand scale
  split
  · next hlow => exact .inr (by simp [Nat.div_eq_of_lt hlow])
  · exact .inl (Nat.le_add_right _ _)

theorem units_succ (magnitude : ℕ) :
    units (magnitude + 1) = units magnitude + 2 ^ scale magnitude := by
  have hlt := significand_lt magnitude
  have hlow := binade_le_significand_or magnitude
  have hsame := units_mul_binade_add hlow hlt.le
  have hnext := units_mul_binade_add
    (hlow.imp_left fun hle => Nat.le_succ_of_le hle) (Nat.succ_le_of_lt hlt)
  rw [Nat.succ_eq_add_one, ← Nat.add_assoc, scale_mul_binade_add_significand] at hnext
  rw [scale_mul_binade_add_significand] at hsame
  rw [hnext, hsame]
  ring

theorem units_strictMono : StrictMono units := by
  apply strictMono_nat_of_lt_succ
  intro magnitude
  rw [units_succ]
  exact Nat.lt_add_of_pos_right (Nat.two_pow_pos _)

/-! ## Distances -/

/-- Of two numbers the one on the same side of their middle is nearer. -/
theorem abs_sub_le_iff_above_halfway {a b x : ℚ} (hab : a < b) :
    |b - x| ≤ |a - x| ↔ a + b ≤ 2 * x := by
  have hsquares : (a - x) ^ 2 - (b - x) ^ 2 = (b - a) * (2 * x - (a + b)) := by ring
  rw [← sq_le_sq, ← sub_nonneg, hsquares, mul_nonneg_iff_of_pos_left (sub_pos.mpr hab), sub_nonneg]

theorem abs_sub_le_iff_below_halfway {a b x : ℚ} (hab : a < b) :
    |a - x| ≤ |b - x| ↔ 2 * x ≤ a + b := by
  have hsquares : (b - x) ^ 2 - (a - x) ^ 2 = (b - a) * (a + b - 2 * x) := by ring
  rw [← sq_le_sq, ← sub_nonneg, hsquares, mul_nonneg_iff_of_pos_left (sub_pos.mpr hab), sub_nonneg]

/-! ## The numbers that round to a magnitude -/

/-- The units half way from a magnitude to the next, twice. -/
def twiceHalfway (magnitude : ℕ) : ℕ :=
  units magnitude + units (magnitude + 1)

theorem twiceHalfway_strictMono : StrictMono twiceHalfway := fun _ _ hlt =>
  Nat.add_lt_add (units_strictMono hlt) (units_strictMono (Nat.add_lt_add_right hlt 1))

theorem twiceHalfway_eq (magnitude : ℕ) :
    (twiceHalfway magnitude : ℚ) = 2 * units magnitude + (2 ^ scale magnitude : ℕ) := by
  rw [twiceHalfway, units_succ, Nat.cast_add, Nat.cast_add]
  ring

/-- The number, counted in units, lies between the two that are half way to the neighbours of the
magnitude, or is one of them and the magnitude is even.  Below the least magnitude there is no
neighbour. -/
structure RoundsTo (x : ℚ) (magnitude : ℕ) : Prop where
  low : ∀ below, magnitude = below + 1 →
    twiceHalfway below < 2 * x ∨ twiceHalfway below = 2 * x ∧ magnitude % 2 = 0
  high : 2 * x < twiceHalfway magnitude ∨ 2 * x = twiceHalfway magnitude ∧ magnitude % 2 = 0

namespace RoundsTo

variable {x y : ℚ} {magnitude other : ℕ}

theorem le_of_le
    (hx : RoundsTo x magnitude) (hy : RoundsTo y other) (hle : x ≤ y) : magnitude ≤ other := by
  by_contra hlt
  obtain ⟨below, rfl⟩ : ∃ below, magnitude = below + 1 :=
    Nat.exists_eq_succ_of_ne_zero (by omega)
  have hother : other ≤ below := by omega
  have hmono : (twiceHalfway other : ℚ) ≤ twiceHalfway below := by
    exact_mod_cast twiceHalfway_strictMono.monotone hother
  -- only the number half way is left, and it would belong to two neighbours, both even
  rcases hx.low below rfl with hlow | ⟨hlow, heven⟩
  · rcases hy.high with hhigh | ⟨hhigh, -⟩ <;> linarith
  · rcases hy.high with hhigh | ⟨hhigh, hparity⟩
    · linarith
    · have hsame : twiceHalfway other = twiceHalfway below := by
        have hcast : (twiceHalfway other : ℚ) = twiceHalfway below := by linarith
        exact_mod_cast hcast
      have hbelow := twiceHalfway_strictMono.injective hsame
      omega

theorem unique (hx : RoundsTo x magnitude) (hother : RoundsTo x other) : magnitude = other :=
  le_antisymm (hx.le_of_le hother le_rfl) (hother.le_of_le hx le_rfl)

/-- The number half way to the next belongs to an even magnitude. -/
theorem halfway_of_even (heven : magnitude % 2 = 0) :
    RoundsTo (twiceHalfway magnitude / 2) magnitude := by
  have htwice : 2 * (twiceHalfway magnitude / 2 : ℚ) = twiceHalfway magnitude := by ring
  refine ⟨?_, .inr ⟨htwice, heven⟩⟩
  rintro below rfl
  left
  rw [htwice]
  exact_mod_cast twiceHalfway_strictMono (Nat.lt_succ_self below)

theorem halfway_of_odd (heven : (magnitude + 1) % 2 = 0) :
    RoundsTo (twiceHalfway magnitude / 2) (magnitude + 1) := by
  have htwice : 2 * (twiceHalfway magnitude / 2 : ℚ) = twiceHalfway magnitude := by ring
  refine ⟨?_, .inl ?_⟩
  · intro below hbelow
    obtain rfl := Nat.succ.inj hbelow
    exact .inr ⟨htwice.symm, heven⟩
  · rw [htwice]
    exact_mod_cast twiceHalfway_strictMono (Nat.lt_succ_self magnitude)

theorem le_iff_of_even (hx : RoundsTo x magnitude) (heven : other % 2 = 0) :
    magnitude ≤ other ↔ 2 * x ≤ twiceHalfway other := by
  constructor
  · intro hle
    have hmono : (twiceHalfway magnitude : ℚ) ≤ twiceHalfway other := by
      exact_mod_cast twiceHalfway_strictMono.monotone hle
    rcases hx.high with hhigh | ⟨hhigh, -⟩ <;> linarith
  · intro hhalfway
    exact hx.le_of_le (halfway_of_even heven) (by linarith)

theorem succ_le_iff_of_odd (hx : RoundsTo x magnitude) (heven : (other + 1) % 2 = 0) :
    other + 1 ≤ magnitude ↔ twiceHalfway other ≤ 2 * x := by
  constructor
  · intro hle
    obtain ⟨below, rfl⟩ : ∃ below, magnitude = below + 1 :=
      Nat.exists_eq_succ_of_ne_zero (by omega)
    have hmono : (twiceHalfway other : ℚ) ≤ twiceHalfway below := by
      exact_mod_cast twiceHalfway_strictMono.monotone (Nat.le_of_succ_le_succ hle)
    rcases hx.low below rfl with hlow | ⟨hlow, -⟩ <;> linarith
  · intro hhalfway
    exact (halfway_of_odd heven).le_of_le hx (by linarith)

/-- No magnitude is nearer, and one that is equally near finds this one even. -/
theorem nearest (hx : RoundsTo x magnitude) (other : ℕ) :
    |(units magnitude : ℚ) - x| ≤ |(units other : ℚ) - x| ∧
    (|(units other : ℚ) - x| ≤ |(units magnitude : ℚ) - x| →
      other = magnitude ∨ magnitude % 2 = 0) := by
  rcases lt_trichotomy other magnitude with hlt | rfl | hgt
  · obtain ⟨below, rfl⟩ : ∃ below, magnitude = below + 1 :=
      Nat.exists_eq_succ_of_ne_zero (by omega)
    have hother : (units other : ℚ) ≤ units below := by
      exact_mod_cast units_strictMono.monotone (Nat.le_of_lt_succ hlt)
    have hunits : (units other : ℚ) < units (below + 1) := by
      exact_mod_cast units_strictMono hlt
    have hlow := hx.low below rfl
    rw [twiceHalfway, Nat.cast_add] at hlow
    rw [abs_sub_le_iff_above_halfway hunits, abs_sub_le_iff_below_halfway hunits]
    rcases hlow with hlow | ⟨hlow, heven⟩
    · exact ⟨by linarith, fun _ => by linarith⟩
    · exact ⟨by linarith, fun _ => .inr heven⟩
  · exact ⟨le_rfl, fun _ => .inl rfl⟩
  · have hother : (units (magnitude + 1) : ℚ) ≤ units other := by
      exact_mod_cast units_strictMono.monotone hgt
    have hunits : (units magnitude : ℚ) < units other := by
      exact_mod_cast units_strictMono hgt
    have hhigh := hx.high
    rw [twiceHalfway, Nat.cast_add] at hhigh
    rw [abs_sub_le_iff_below_halfway hunits, abs_sub_le_iff_above_halfway hunits]
    rcases hhigh with hhigh | ⟨hhigh, heven⟩
    · exact ⟨by linarith, fun _ => by linarith⟩
    · exact ⟨by linarith, fun _ => .inr heven⟩

/-- From between two neighbours, down. -/
theorem of_below_halfway
    (hlow : units magnitude ≤ x)
    (hhigh : 2 * x < twiceHalfway magnitude ∨
      2 * x = twiceHalfway magnitude ∧ magnitude % 2 = 0) : RoundsTo x magnitude where
  low := by
    rintro below rfl
    left
    have hlt : (units below : ℚ) < units (below + 1) := by
      exact_mod_cast units_strictMono (Nat.lt_succ_self below)
    rw [twiceHalfway, Nat.cast_add]
    linarith
  high := hhigh

/-- From between two neighbours, up. -/
theorem of_above_halfway
    (hhigh : x < units (magnitude + 1))
    (hlow : twiceHalfway magnitude < 2 * x ∨
      twiceHalfway magnitude = 2 * x ∧ (magnitude + 1) % 2 = 0) : RoundsTo x (magnitude + 1) where
  low := by
    rintro below hbelow
    obtain rfl := Nat.succ.inj hbelow
    exact hlow
  high := by
    left
    have hlt : (units (magnitude + 1) : ℚ) < units (magnitude + 1 + 1) := by
      exact_mod_cast units_strictMono (Nat.lt_succ_self _)
    rw [twiceHalfway, Nat.cast_add]
    linarith

theorem self (magnitude : ℕ) : RoundsTo (units magnitude) magnitude := by
  apply of_below_halfway le_rfl
  have hlt : (units magnitude : ℚ) < units (magnitude + 1) := by
    exact_mod_cast units_strictMono (Nat.lt_succ_self magnitude)
  left
  rw [twiceHalfway, Nat.cast_add]
  linarith

theorem of_between {low high : ℚ} (hlow : RoundsTo low magnitude) (hhigh : RoundsTo high magnitude)
    (hleft : low ≤ x) (hright : x ≤ high) : RoundsTo x magnitude where
  low below hbelow := by
    rcases hlow.low below hbelow with hlt | ⟨heq, heven⟩
    · exact .inl (by linarith)
    · exact (lt_or_eq_of_le (heq.le.trans (mul_le_mul_of_nonneg_left hleft two_pos.le))).imp_right
        fun hend => ⟨hend, heven⟩
  high := by
    rcases hhigh.high with hlt | ⟨heq, heven⟩
    · exact .inl (by linarith)
    · exact (lt_or_eq_of_le ((mul_le_mul_of_nonneg_left hright two_pos.le).trans heq.le)).imp_right
        fun hend => ⟨hend, heven⟩

/-- A number behind a magnitude is rounded by its excess, down or up. -/
theorem of_excess_down {excess : ℚ} (hpos : 0 ≤ excess)
    (hdown : 2 * excess < (2 ^ scale magnitude : ℕ) ∨
      2 * excess = (2 ^ scale magnitude : ℕ) ∧ magnitude % 2 = 0) :
    RoundsTo (units magnitude + excess) magnitude := by
  apply of_below_halfway
  · linarith
  · rw [twiceHalfway_eq]
    exact hdown.imp (fun hlt => by linarith) (And.imp_left fun heq => by linarith)

theorem of_excess_up {excess : ℚ} (hlt : excess < (2 ^ scale magnitude : ℕ))
    (hup : (2 ^ scale magnitude : ℕ) < 2 * excess ∨
      (2 ^ scale magnitude : ℕ) = 2 * excess ∧ magnitude % 2 = 1) :
    RoundsTo (units magnitude + excess) (magnitude + 1) := by
  apply of_above_halfway
  · rw [units_succ, Nat.cast_add]
    linarith
  · rw [twiceHalfway_eq]
    exact hup.imp (fun hlt => by linarith) fun heq => ⟨by linarith, by omega⟩

end RoundsTo

/-! ## Rounding -/

/-- The nearest magnitude to a number of units if there were no greatest one. -/
def unboundedMagnitude (numerator denominator : ℕ) : ℕ :=
  let shift := (numerator / denominator).log2 - 52
  shift * binade + roundDiv numerator (denominator <<< shift)

/-- The quotient of the shifted division has 53 binary digits, or less if there is no shift. -/
theorem shifted_quotient_bounds (numerator denominator : ℕ) :
    let shift := (numerator / denominator).log2 - 52
    let quotient := numerator / (denominator <<< shift)
    (binade ≤ quotient ∨ shift = 0) ∧ quotient < 2 * binade := by
  intro shift quotient
  have hbinade : binade = 2 ^ 52 := by decide
  have hquotient : quotient = numerator / denominator / 2 ^ shift := by
    rw [Nat.div_div_eq_div_mul, ← Nat.shiftLeft_eq]
  have hbelow : numerator / denominator < 2 ^ ((numerator / denominator).log2 + 1) :=
    Nat.lt_log2_self
  rw [hquotient, hbinade]
  constructor
  · by_cases hshift : shift = 0
    · exact .inr hshift
    · left
      have hlog : (numerator / denominator).log2 = 52 + shift := by omega
      have hne : numerator / denominator ≠ 0 := by
        intro hzero
        rw [hzero] at hlog
        simp at hlog
        omega
      have habove := Nat.log2_self_le hne
      rw [hlog, Nat.pow_add] at habove
      exact (Nat.le_div_iff_mul_le (Nat.two_pow_pos _)).mpr habove
  · have hlog : (numerator / denominator).log2 + 1 ≤ 53 + shift := by omega
    have hpow : 2 ^ ((numerator / denominator).log2 + 1) ≤ 2 * 2 ^ 52 * 2 ^ shift :=
      (Nat.pow_le_pow_right (by decide) hlog).trans_eq (Nat.pow_add 2 53 shift)
    exact (Nat.div_lt_iff_lt_mul (Nat.two_pow_pos _)).mpr (hbelow.trans_le hpow)

/-- A quotient of naturals, after division by `2 ^ shift` as well. -/
theorem roundsTo_of_division
    {denominator shift quotient remainder : ℕ} (hpos : 0 < denominator)
    (hlow : binade ≤ quotient ∨ shift = 0) (hhigh : quotient < 2 * binade)
    (hremainder : remainder < denominator * 2 ^ shift) :
    RoundsTo ((quotient * (denominator * 2 ^ shift) + remainder : ℕ) / denominator)
      (shift * binade +
        if 2 * remainder < denominator * 2 ^ shift ∨
            2 * remainder = denominator * 2 ^ shift ∧ quotient % 2 = 0
          then quotient else quotient + 1) := by
  have hunits := units_mul_binade_add hlow hhigh.le
  have hnext := units_mul_binade_add (hlow.imp_left Nat.le_succ_of_le) (Nat.succ_le_of_lt hhigh)
  have hscale : 2 ^ scale (shift * binade + quotient) = 2 ^ shift := by
    rw [Nat.succ_eq_add_one, ← Nat.add_assoc, units_succ, hunits, Nat.succ_mul] at hnext
    exact Nat.add_left_cancel hnext
  have hparity : (shift * binade + quotient) % 2 = quotient % 2 := by
    rw [binade]
    omega
  have hcast : (0 : ℚ) < denominator := by exact_mod_cast hpos
  have hvalue : ((quotient * (denominator * 2 ^ shift) + remainder : ℕ) / denominator : ℚ) =
      units (shift * binade + quotient) + remainder / denominator := by
    rw [hunits]
    push_cast
    field_simp
  have htwice : 2 * (remainder / denominator : ℚ) = (2 * remainder : ℕ) / denominator := by
    push_cast
    ring
  rw [hvalue]
  split
  · next hdown =>
    apply RoundsTo.of_excess_down (by positivity)
    rw [hscale, hparity, htwice, div_lt_iff₀' hcast, div_eq_iff hcast.ne',
      mul_comm _ (denominator : ℚ)]
    exact_mod_cast hdown
  · next hup =>
    rw [← Nat.add_assoc]
    apply RoundsTo.of_excess_up
    · rw [hscale, div_lt_iff₀' hcast]
      exact_mod_cast hremainder
    · rw [hscale, hparity, htwice, lt_div_iff₀' hcast, eq_div_iff hcast.ne',
        mul_comm _ (denominator : ℚ)]
      norm_cast
      omega

theorem roundsTo_unboundedMagnitude (numerator : ℕ) {denominator : ℕ} (hpos : 0 < denominator) :
    RoundsTo (numerator / denominator) (unboundedMagnitude numerator denominator) := by
  obtain ⟨hlow, hhigh⟩ := shifted_quotient_bounds numerator denominator
  have hstep : 0 < denominator <<< ((numerator / denominator).log2 - 52) := by
    rw [Nat.shiftLeft_eq]
    exact Nat.mul_pos hpos (Nat.two_pow_pos _)
  have hremainder := Nat.mod_lt numerator hstep
  rw [Nat.shiftLeft_eq] at hlow hhigh hremainder
  have hrounded := roundsTo_of_division hpos hlow hhigh hremainder
  rw [Nat.div_add_mod'] at hrounded
  rwa [unboundedMagnitude, roundDiv, Nat.shiftLeft_eq]

end LoxLexer.Binary64
