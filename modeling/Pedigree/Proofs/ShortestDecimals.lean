import Mathlib.Algebra.Order.Field.Power
import Mathlib.Algebra.Order.Field.Rat
import Mathlib.Data.Nat.Log
import Mathlib.Tactic.Linarith
import Mathlib.Tactic.Positivity
import Mathlib.Tactic.Ring
import Mathlib.Tactic.SplitIfs
import Pedigree.Number.Shortest

/-!
# The shortest decimal rounds to its number

The reals that round to a binary64 form an interval, from halfway to the number below up to
halfway to the number above. `Binary64.Covers` says that a rational lies there, and the intervals of
two numbers have no rational in common (`exponent_fraction_of_covers`).

The search for the shortest decimal ends, since a grid whose step is less than the interval has a
point in it. The exponent of the leading digit is estimated from the number of bits, and is not
too great (`ten_zpow_decimalExponent_le`), so 17 digits are enough. What the search ends with lies
in the interval (`covers_shortest`).
-/

namespace Pedigree

/-- The number that a decimal stands for. -/
def Decimal.value (d : Decimal) : ℚ := d.coefficient * 10 ^ d.exponent

namespace Binary64

variable {x y : Binary64}

/-! ## The interval of a number -/

/-- A rational in units of `2 ^ -1076`. The least number above zero has four of them. -/
def quarters (q : ℚ) : ℚ := q * 2 ^ 1076

theorem quarters_mul (c q : ℚ) : quarters (c * q) = c * quarters q := mul_assoc ..

/-- How far the interval reaches below the number. -/
def below (x : Binary64) : Nat :=
  if x.fraction.val = 0 ∧ 1 < x.exponent.val then x.unit else 2 * x.unit

/-- The lower end of the interval. -/
def lowEnd (x : Binary64) : Nat := 4 * x.magnitude - x.below

/-- The upper end of the interval. -/
def highEnd (x : Binary64) : Nat := 4 * x.magnitude + 2 * x.unit

/-- The rational lies in the interval. The ends belong to a number whose significand is even. -/
structure Covers (x : Binary64) (q : ℚ) : Prop where
  low : (x.lowEnd : ℚ) ≤ quarters q
  high : quarters q ≤ x.highEnd
  inside : x.significand % 2 = 1 → (x.lowEnd : ℚ) < quarters q ∧ quarters q < x.highEnd

theorem Covers.of_inside {q : ℚ} (hlow : (x.lowEnd : ℚ) < quarters q)
    (hhigh : quarters q < x.highEnd) : x.Covers q := ⟨hlow.le, hhigh.le, fun _ => ⟨hlow, hhigh⟩⟩

theorem unit_pos (x : Binary64) : 0 < x.unit := Nat.two_pow_pos _

theorem significand_le (x : Binary64) : x.significand ≤ 2 ^ 53 := by
  have hfraction : x.fraction.val < 2 ^ 52 := x.fraction.isLt
  by_cases hzero : x.exponent.val = 0
  · have hsignificand : x.significand = x.fraction.val := if_pos hzero
    omega
  · have hsignificand : x.significand = 2 ^ 52 + x.fraction.val := if_neg hzero
    omega

theorem below_pos (x : Binary64) : 0 < x.below := by
  have hunit := x.unit_pos
  unfold below
  split <;> omega

theorem below_le (x : Binary64) : x.below ≤ 2 * x.unit := by
  have hunit := x.unit_pos
  unfold below
  split <;> omega

/-- The number lies below the first one of the next exponent. It is the last one before that only
if its significand is odd. -/
theorem magnitude_add_unit_le (x : Binary64) :
    x.magnitude + x.unit ≤ 2 ^ 52 * 2 ^ x.exponent.val ∧
      (x.magnitude + x.unit = 2 ^ 52 * 2 ^ x.exponent.val → x.significand % 2 = 1) := by
  have hfraction : x.fraction.val < 2 ^ 52 := x.fraction.isLt
  have hsum : x.magnitude + x.unit = (x.significand + 1) * x.unit := (Nat.succ_mul ..).symm
  rw [hsum]
  rcases Nat.eq_zero_or_pos x.exponent.val with hzero | hpos
  · have hunit : x.unit = 1 := by rw [unit, hzero]
    have hsignificand : x.significand = x.fraction.val := if_pos hzero
    rw [hunit, hsignificand, hzero]
    omega
  · have hunit : 2 ^ x.exponent.val = 2 * x.unit := by
      rw [unit, Nat.pow_eq, ← Nat.pow_succ', Nat.succ_eq_add_one, Nat.sub_add_cancel hpos]
    have hsignificand : x.significand = 2 ^ 52 + x.fraction.val := if_neg (by omega)
    have hdouble : 2 ^ 52 * (2 * x.unit) = 2 ^ 53 * x.unit := by ring
    rw [hunit, hsignificand, hdouble]
    constructor
    · exact Nat.mul_le_mul_right _ (by omega)
    · intro heq
      have := Nat.eq_of_mul_eq_mul_right x.unit_pos heq
      omega

/-- The first number comes before the second one, their signs apart. -/
def Precedes (x y : Binary64) : Prop :=
  x.exponent.val < y.exponent.val ∨
    x.exponent.val = y.exponent.val ∧ x.fraction.val < y.fraction.val

/-- The interval of the first number of an exponent reaches half as far below it as above. -/
theorem below_of_next (hexponent : y.exponent.val = x.exponent.val + 1)
    (hfraction : y.fraction.val = 0) : y.below = 2 * x.unit := by
  have hunit : y.unit = 2 ^ x.exponent.val := by
    rw [unit, hexponent]
    rfl
  unfold below
  rw [hunit, unit]
  rcases Nat.eq_zero_or_pos x.exponent.val with hzero | hpos
  · -- Subnormal numbers are as far apart as the numbers of the next exponent.
    rw [if_neg (by omega), hzero]
    rfl
  · rw [if_pos ⟨hfraction, by omega⟩, Nat.pow_eq, ← Nat.pow_succ', Nat.succ_eq_add_one,
      Nat.sub_add_cancel hpos]

/-- Numbers of one exponent lie as far apart as their fractions. -/
theorem magnitude_of_exponent_eq {k : Nat} (hexponent : x.exponent.val = y.exponent.val)
    (hfraction : y.fraction.val = x.fraction.val + k + 1) :
    y.significand = x.significand + k + 1 ∧
      y.magnitude = x.magnitude + k * x.unit + x.unit := by
  have hunit : y.unit = x.unit := by rw [unit, unit, hexponent]
  have hsignificand : y.significand = x.significand + k + 1 := by
    unfold significand
    split_ifs <;> omega
  refine ⟨hsignificand, ?_⟩
  rw [magnitude, hsignificand, hunit, Nat.succ_mul, Nat.add_mul, magnitude]

/-- An interval ends where the next one starts or before. Only one of the two holds a common
end. -/
theorem Precedes.highEnd_le (h : Precedes x y) :
    x.highEnd ≤ y.lowEnd ∧
      (x.highEnd = y.lowEnd → x.significand % 2 = 1 ∨ y.significand % 2 = 1) := by
  have hunit := x.unit_pos
  have hbelow := y.below_le
  unfold highEnd lowEnd
  rcases h with hexponent | ⟨hexponent, hfraction⟩
  · obtain ⟨hle, hodd⟩ := x.magnitude_add_unit_le
    have hsignificand : y.significand = 2 ^ 52 + y.fraction.val := if_neg (by omega)
    have hmagnitude : y.magnitude = 2 ^ 52 * y.unit + y.fraction.val * y.unit := by
      rw [magnitude, hsignificand, Nat.add_mul]
    rcases Nat.lt_or_eq_of_le hexponent with hlt | heq
    · -- Another exponent lies between the two.
      have hfar : 2 * 2 ^ x.exponent.val ≤ y.unit := by
        rw [unit, ← Nat.pow_succ']
        exact Nat.pow_le_pow_right (by decide) (by omega)
      omega
    · have hnext : y.unit = 2 ^ x.exponent.val := by
        rw [unit, ← heq]
        rfl
      rcases Nat.eq_zero_or_pos y.fraction.val with hzero | hpos
      · have hhalf := below_of_next heq.symm hzero
        rw [hzero, Nat.zero_mul] at hmagnitude
        exact ⟨by omega, fun hends => Or.inl (hodd (by omega))⟩
      · have hbeyond : y.unit ≤ y.fraction.val * y.unit := Nat.le_mul_of_pos_left _ hpos
        omega
  · obtain ⟨k, hk⟩ := Nat.exists_eq_add_of_lt hfraction
    have hsame : y.unit = x.unit := by rw [unit, unit, hexponent]
    obtain ⟨hsignificand, hmagnitude⟩ := magnitude_of_exponent_eq hexponent hk
    refine ⟨by omega, fun hends => ?_⟩
    have hadjacent : k = 0 := by
      by_contra hk
      have hstep : x.unit ≤ k * x.unit := Nat.le_mul_of_pos_left _ (Nat.pos_of_ne_zero hk)
      omega
    omega

theorem Precedes.not_covers (h : Precedes x y) {q : ℚ} (hx : x.Covers q) : ¬y.Covers q := by
  intro hy
  obtain ⟨hle, hodd⟩ := h.highEnd_le
  have hcast : (x.highEnd : ℚ) ≤ y.lowEnd := Nat.cast_le.2 hle
  have hends : x.highEnd = y.lowEnd :=
    Nat.cast_injective (hcast.antisymm (hy.low.trans hx.high))
  rcases hodd hends with hx' | hy'
  · exact absurd (hcast.trans hy.low) (not_le.2 (hx.inside hx').2)
  · exact absurd (hx.high.trans hcast) (not_le.2 (hy.inside hy').1)

theorem Precedes.magnitude_lt (h : Precedes x y) : x.magnitude < y.magnitude := by
  have hle := h.highEnd_le.1
  have hunit := x.unit_pos
  unfold highEnd lowEnd at hle
  omega

/-- Numbers of which none comes before the other differ in their signs at most. -/
theorem exponent_fraction_of_not_precedes (h : ¬Precedes x y) (h' : ¬Precedes y x) :
    x.exponent = y.exponent ∧ x.fraction = y.fraction := by
  rw [Fin.ext_iff, Fin.ext_iff]
  unfold Precedes at h h'
  omega

/-- The intervals of different numbers have nothing in common. -/
theorem exponent_fraction_of_covers {q : ℚ} (hx : x.Covers q) (hy : y.Covers q) :
    x.exponent = y.exponent ∧ x.fraction = y.fraction :=
  exponent_fraction_of_not_precedes (fun h => h.not_covers hx hy) fun h => h.not_covers hy hx

theorem exponent_fraction_of_magnitude (h : x.magnitude = y.magnitude) :
    x.exponent = y.exponent ∧ x.fraction = y.fraction :=
  exponent_fraction_of_not_precedes (fun hlt => Nat.ne_of_lt hlt.magnitude_lt h) fun hlt =>
    Nat.ne_of_lt hlt.magnitude_lt h.symm

/-! ## The points of a grid -/

/-- What makes the number, its interval and the step of a grid integers. -/
def gridScale (power : ℤ) : Nat := Nat.pow 10 (-power).toNat

section Grid

variable {power : ℤ} {a c : Nat}

theorem gridScale_pos (power : ℤ) : (0 : ℚ) < gridScale power :=
  Nat.cast_pos.2 (Nat.pow_pos (by decide))

theorem cast_step (x : Binary64) (power : ℤ) :
    ((x.grid power).step : ℚ) = quarters (10 ^ power) * gridScale power := by
  have hstep : (x.grid power).step = Nat.pow 2 1076 * Nat.pow 10 power.toNat := by rw [grid]
  have hscale : (10 : ℚ) ^ power * 10 ^ (-power).toNat = 10 ^ power.toNat := by
    rcases le_total 0 power with h | h
    · lift power to ℕ using h
      simp
    · obtain ⟨n, rfl⟩ : ∃ n : ℕ, power = -n := ⟨power.natAbs, by omega⟩
      simp
  rw [hstep, gridScale, quarters]
  -- As a variable the exponent is not evaluated.
  generalize 1076 = k
  rw [Nat.cast_mul, Nat.pow_eq, Nat.pow_eq, Nat.pow_eq, Nat.cast_pow, Nat.cast_pow, Nat.cast_pow,
    Nat.cast_ofNat, Nat.cast_ofNat, ← hscale]
  ring

theorem le_step_iff : a * gridScale power ≤ c * (x.grid power).step ↔
    (a : ℚ) ≤ quarters (c * 10 ^ power) := by
  rw [← Nat.cast_le (α := ℚ), Nat.cast_mul, Nat.cast_mul, cast_step, ← mul_assoc, ← quarters_mul,
    mul_le_mul_iff_left₀ (gridScale_pos power)]

theorem step_le_iff : c * (x.grid power).step ≤ a * gridScale power ↔
    quarters (c * 10 ^ power) ≤ (a : ℚ) := by
  rw [← Nat.cast_le (α := ℚ), Nat.cast_mul, Nat.cast_mul, cast_step, ← mul_assoc, ← quarters_mul,
    mul_le_mul_iff_left₀ (gridScale_pos power)]

/-- A grid point hits if it is not zero and lies in the interval. -/
theorem hits_iff : (x.grid power).hits c = true ↔ c ≠ 0 ∧ x.Covers (c * 10 ^ power) := by
  have hlow : (x.grid power).low = x.lowEnd * gridScale power := rfl
  have hhigh : (x.grid power).high = x.highEnd * gridScale power := rfl
  have hclosed : (x.grid power).closed = (x.significand % 2 == 0) := rfl
  simp only [Grid.hits, hlow, hhigh, hclosed, Bool.and_eq_true, bne_iff_ne, beq_iff_eq]
  refine and_congr_right fun _ => ?_
  split
  · rename_i heven
    simp only [Bool.and_eq_true, decide_eq_true_eq, le_step_iff, step_le_iff]
    exact ⟨fun h => ⟨h.1, h.2, fun hodd => by omega⟩, fun h => ⟨h.low, h.high⟩⟩
  · rename_i hodd
    simp only [Bool.and_eq_true, decide_eq_true_eq, ← not_le, le_step_iff, step_le_iff]
    simp only [not_le]
    exact ⟨fun h => ⟨h.1.le, h.2.le, fun _ => h⟩, fun h => h.inside (by omega)⟩

theorem Grid.hits_of_nearest? {g : Grid} (h : g.nearest? = some c) : g.hits c = true := by
  simp only [nearest?] at h
  split at h
  · cases h
  · rename_i hhits _
    rwa [← Option.some.inj h]
  · rename_i _ hhits
    rwa [← Option.some.inj h]
  · rename_i hhits hhits'
    split_ifs at h <;> rwa [← Option.some.inj h]

/-- The last point of a grid up to the number. -/
theorem Grid.exists_last (g : Grid) (h : 0 < g.step) :
    ∃ c, g.value / g.step = c ∧ c * g.step ≤ g.value ∧ g.value < (c + 1) * g.step := by
  refine ⟨_, rfl, Nat.div_mul_le_self .., ?_⟩
  rw [Nat.mul_comm]
  exact Nat.lt_mul_div_succ _ h

theorem Grid.exists_nearest? {g : Grid}
    (h : g.hits (g.value / g.step) = true ∨ g.hits (g.value / g.step + 1) = true) :
    ∃ c, g.nearest? = some c := by
  simp only [nearest?]
  split
  · rename_i hmiss hmiss'
    rw [hmiss, hmiss'] at h
    simp at h
  · exact ⟨_, rfl⟩
  · exact ⟨_, rfl⟩
  · split_ifs <;> exact ⟨_, rfl⟩

end Grid

/-! ## The leading digit -/

/-- Powers of ten below a power of two, by `10 ^ 59 ≤ 2 ^ 196`. -/
theorem ten_pow_le_two_pow {m n : Nat} (h : 196 * m ≤ 59 * n) : 10 ^ m ≤ 2 ^ n := by
  refine le_of_pow_le_pow_left₀ (n := 59) (by decide) (Nat.zero_le _) ?_
  calc (10 ^ m) ^ 59 = (10 ^ 59) ^ m := Nat.pow_right_comm ..
    _ ≤ (2 ^ 196) ^ m := Nat.pow_le_pow_left (by decide) m
    _ = 2 ^ (196 * m) := (Nat.pow_mul ..).symm
    _ ≤ 2 ^ (59 * n) := Nat.pow_le_pow_right (by decide) h
    _ = (2 ^ n) ^ 59 := by rw [← Nat.pow_mul, Nat.mul_comm]

/-- Powers of two below a power of ten, by `2 ^ 93 ≤ 10 ^ 28`. -/
theorem two_pow_le_ten_pow {m n : Nat} (h : 28 * m ≤ 93 * n) : 2 ^ m ≤ 10 ^ n := by
  refine le_of_pow_le_pow_left₀ (n := 28) (by decide) (Nat.zero_le _) ?_
  calc (2 ^ m) ^ 28 = 2 ^ (28 * m) := by rw [← Nat.pow_mul, Nat.mul_comm]
    _ ≤ 2 ^ (93 * n) := Nat.pow_le_pow_right (by decide) h
    _ = (2 ^ 93) ^ n := Nat.pow_mul ..
    _ ≤ (10 ^ 28) ^ n := Nat.pow_le_pow_left (by decide) n
    _ = (10 ^ n) ^ 28 := Nat.pow_right_comm ..

/-- In the range of exponents the estimate of the leading digit is at most one too great. -/
theorem ten_zpow_estimate_le {j : ℤ} (hlow : -1074 ≤ j) (hhigh : j ≤ 1023) :
    (10 : ℚ) ^ (j * 30103 / 100000 - 1) ≤ 2 ^ j := by
  rcases Int.lt_or_le (j * 30103 / 100000 - 1) 0 with hneg | hnonneg
  · rcases Int.lt_or_le j 0 with hj | hj
    · obtain ⟨m, rfl⟩ : ∃ m : ℕ, j = -m := ⟨j.natAbs, by omega⟩
      obtain ⟨n, hn⟩ : ∃ n : ℕ, -(m : ℤ) * 30103 / 100000 - 1 = -n :=
        ⟨(-(m : ℤ) * 30103 / 100000 - 1).natAbs, by omega⟩
      have hpow : 2 ^ m ≤ 10 ^ n := two_pow_le_ten_pow (by omega)
      rw [hn, zpow_neg, zpow_neg, zpow_natCast, zpow_natCast]
      exact inv_anti₀ (by positivity) (by exact_mod_cast hpow)
    · exact (zpow_le_one_of_nonpos₀ (by norm_num) hneg.le).trans
        (one_le_zpow₀ (by norm_num) hj)
  · obtain ⟨m, hm⟩ := Int.eq_ofNat_of_zero_le hnonneg
    obtain ⟨n, rfl⟩ := Int.eq_ofNat_of_zero_le (show 0 ≤ j by omega)
    have hpow : 10 ^ m ≤ 2 ^ n := ten_pow_le_two_pow (by omega)
    rw [hm, zpow_natCast, zpow_natCast]
    exact_mod_cast hpow

theorem log2_magnitude_le (h : x.isFinite = true) : Nat.log2 x.magnitude ≤ 2097 := by
  have hexponent : x.exponent.val ≠ 2047 := by simpa [isFinite] using h
  have hlt : x.magnitude < 2 ^ (52 + x.exponent.val) := by
    have hunit := x.unit_pos
    have hle := x.magnitude_add_unit_le.1
    rw [Nat.pow_add]
    omega
  rcases Nat.eq_zero_or_pos x.magnitude with hzero | hpos
  · simp [hzero]
  · have hlog := (Nat.log2_lt (Nat.ne_of_gt hpos)).2 hlt
    omega

/-- The leading digit is not estimated too great. -/
theorem quarters_decimalExponent_le (hfinite : x.isFinite = true) (hne : x.magnitude ≠ 0) :
    quarters (10 ^ x.decimalExponent) ≤ ((4 * x.magnitude : Nat) : ℚ) := by
  have hreaches : ∀ {k}, decide ((x.grid k).step ≤ (x.grid k).value) = true →
      quarters (10 ^ k) ≤ ((4 * x.magnitude : Nat) : ℚ) := by
    intro k hk
    have hstep : 1 * (x.grid k).step ≤ 4 * x.magnitude * gridScale k := by
      rw [Nat.one_mul]
      exact of_decide_eq_true hk
    simpa only [Nat.cast_one, one_mul] using step_le_iff.1 hstep
  simp only [decimalExponent]
  split_ifs with habove hat
  · exact hreaches habove
  · exact hreaches hat
  · have hlog : 2 ^ Nat.log2 x.magnitude ≤ x.magnitude := Nat.log2_self_le hne
    have hrange := log2_magnitude_le hfinite
    have hestimate := ten_zpow_estimate_le (j := (Nat.log2 x.magnitude : ℤ) - 1074) (by omega)
      (by omega)
    calc quarters _ ≤ quarters (2 ^ ((Nat.log2 x.magnitude : ℤ) - 1074)) :=
          mul_le_mul_of_nonneg_right hestimate (by positivity)
      _ = 2 ^ 2 * 2 ^ Nat.log2 x.magnitude := by
          rw [quarters, ← zpow_natCast, ← zpow_natCast, ← zpow_natCast, ← zpow_add₀ two_ne_zero,
            ← zpow_add₀ two_ne_zero]
          congr 1
          omega
      _ ≤ ((4 * x.magnitude : Nat) : ℚ) := by
          rw [Nat.cast_mul]
          exact mul_le_mul (by norm_num) (by exact_mod_cast hlog) (by positivity) (by positivity)

/-! ## The search -/

/-- The interval is wider than the last of 17 digits. -/
theorem magnitude_lt (x : Binary64) : 4 * x.magnitude < 10 ^ 16 * (x.below + 2 * x.unit) := by
  have hunit := x.unit_pos
  have hfraction : x.fraction.val < 2 ^ 52 := x.fraction.isLt
  unfold magnitude below
  split_ifs with hfirst
  · have hsignificand : x.significand = 2 ^ 52 := by
      rw [significand, if_neg (by omega), hfirst.1]
      rfl
    rw [hsignificand]
    omega
  · have hle := Nat.mul_le_mul_right x.unit x.significand_le
    omega

theorem cast_lowEnd (hne : x.magnitude ≠ 0) : (x.lowEnd : ℚ) = 4 * x.magnitude - x.below := by
  have hle : x.below ≤ 4 * x.magnitude := by
    have hbelow := x.below_le
    have hsignificand : 0 < x.significand := by
      refine Nat.pos_of_ne_zero fun hzero => hne ?_
      rw [magnitude, hzero, Nat.zero_mul]
    have hunit : x.unit ≤ x.magnitude := Nat.le_mul_of_pos_left _ hsignificand
    omega
  rw [lowEnd, Nat.cast_sub hle, Nat.cast_mul]
  rfl

theorem cast_highEnd (x : Binary64) : (x.highEnd : ℚ) = 4 * x.magnitude + 2 * x.unit := by
  rw [highEnd]
  push_cast
  rfl

/-- In a grid whose leading digit has 16 others behind it, a step is less than the interval. -/
theorem quarters_lt_width {power : ℤ}
    (h : 10 ^ 16 * quarters (10 ^ power) ≤ ((4 * x.magnitude : Nat) : ℚ)) :
    quarters (10 ^ power) < x.below + 2 * x.unit := by
  have hlt : ((4 * x.magnitude : Nat) : ℚ) < ((10 ^ 16 * (x.below + 2 * x.unit) : Nat) : ℚ) :=
    Nat.cast_lt.2 x.magnitude_lt
  push_cast at hlt h
  linarith

/-- If a step is less than the interval, then the last point up to the number lies there, or else
the point after it. -/
theorem covers_or_covers_succ {power : ℤ} {c : Nat} (hne : x.magnitude ≠ 0)
    (hwidth : quarters (10 ^ power) < x.below + 2 * x.unit)
    (hle : quarters (c * 10 ^ power) ≤ ((4 * x.magnitude : Nat) : ℚ))
    (hlt : ((4 * x.magnitude : Nat) : ℚ) < quarters ((c + 1 : Nat) * 10 ^ power)) :
    x.Covers (c * 10 ^ power) ∨ x.Covers ((c + 1 : Nat) * 10 ^ power) := by
  have hbelow : (0 : ℚ) < x.below := Nat.cast_pos.2 x.below_pos
  have hunit : (0 : ℚ) < x.unit := Nat.cast_pos.2 x.unit_pos
  rw [quarters_mul] at hle hlt
  push_cast at hle hlt
  by_cases hnear : 4 * x.magnitude - c * quarters (10 ^ power) < x.below
  · refine Or.inl (.of_inside ?_ ?_)
    · rw [cast_lowEnd hne, quarters_mul]
      linarith
    · rw [cast_highEnd, quarters_mul]
      linarith
  · refine Or.inr (.of_inside ?_ ?_)
    · rw [cast_lowEnd hne, quarters_mul]
      push_cast
      linarith
    · rw [cast_highEnd, quarters_mul]
      push_cast
      linarith

/-- A grid whose leading digit has 16 others behind it has a point in the interval. -/
theorem exists_nearest?_of_step {power : ℤ} (hne : x.magnitude ≠ 0)
    (h : 10 ^ 16 * quarters (10 ^ power) ≤ ((4 * x.magnitude : Nat) : ℚ)) :
    ∃ c, (x.grid power).nearest? = some c := by
  have hpos : 0 < quarters (10 ^ power) := mul_pos (zpow_pos (by norm_num) _) (by positivity)
  have hstep : 0 < (x.grid power).step := by
    rw [← Nat.cast_pos (α := ℚ), cast_step]
    exact mul_pos hpos (gridScale_pos power)
  obtain ⟨c, hc, hle, hlt⟩ := (x.grid power).exists_last hstep
  have hvalue : (x.grid power).value = 4 * x.magnitude * gridScale power := by rw [grid, gridScale]
  rw [hvalue] at hle hlt
  have hreaches : 1 * (x.grid power).step ≤ 4 * x.magnitude * gridScale power := by
    refine step_le_iff.2 ?_
    rw [Nat.cast_one, one_mul]
    linarith
  have hne' : c ≠ 0 := by
    rintro rfl
    rw [Nat.zero_add] at hlt
    exact absurd hreaches (Nat.not_le.2 hlt)
  rw [← Nat.not_le, step_le_iff, not_le] at hlt
  refine Grid.exists_nearest? (hc ▸ ?_)
  rcases covers_or_covers_succ hne (quarters_lt_width h) (step_le_iff.1 hle) hlt with
    hcovers | hcovers
  · exact Or.inl (hits_iff.2 ⟨hne', hcovers⟩)
  · exact Or.inr (hits_iff.2 ⟨Nat.succ_ne_zero c, hcovers⟩)

@[simp] theorem value_stripZeros (fuel : Nat) (d : Decimal) :
    (stripZeros fuel d).value = d.value := by
  induction fuel generalizing d with
  | zero => rfl
  | succ fuel ih =>
    rw [stripZeros]
    split
    · rename_i hdigit
      rw [ih, Decimal.value, Decimal.value]
      have hcoefficient : d.coefficient = 10 * (d.coefficient / 10) := by omega
      conv_rhs => rw [hcoefficient]
      dsimp only
      rw [zpow_add_one₀ (by norm_num)]
      push_cast
      ring
    · rfl

/-- The shortest decimal of a number lies in the interval of the number. -/
theorem covers_shortest (hfinite : x.isFinite = true) (hne : x.magnitude ≠ 0) :
    x.Covers x.shortest.value ∧ x.shortest.value ≠ 0 := by
  have hlast : 10 ^ 16 * quarters (10 ^ (x.decimalExponent - (16 : ℕ))) ≤
      ((4 * x.magnitude : Nat) : ℚ) := by
    have hpow : (10 : ℚ) ^ x.decimalExponent =
        10 ^ 16 * 10 ^ (x.decimalExponent - (16 : ℕ)) := by
      rw [← zpow_natCast, ← zpow_add₀ (by norm_num), add_sub_cancel]
    rw [← quarters_mul, ← hpow]
    exact quarters_decimalExponent_le hfinite hne
  obtain ⟨c, hc⟩ := exists_nearest?_of_step hne hlast
  simp only [shortest, if_neg hne]
  generalize hfound : List.findSome? _ (List.range 17) = found
  cases found with
  | none =>
    rw [List.findSome?_eq_none_iff] at hfound
    have := hfound 16 (by decide)
    rw [hc] at this
    cases this
  | some d =>
    obtain ⟨n, -, hn⟩ := List.exists_of_findSome?_eq_some hfound
    obtain ⟨c, hnearest, rfl⟩ := Option.map_eq_some_iff.1 hn
    obtain ⟨hzero, hcovers⟩ := hits_iff.1 (Grid.hits_of_nearest? hnearest)
    rw [Option.getD_some, value_stripZeros]
    exact ⟨hcovers, mul_ne_zero (Nat.cast_ne_zero.2 hzero) (zpow_ne_zero _ (by norm_num))⟩

end Binary64

end Pedigree
