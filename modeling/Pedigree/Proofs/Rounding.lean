import Mathlib.Algebra.Order.Ring.Nat
import Mathlib.Tactic.Ring
import Pedigree.Number

/-!
# Rounding to binary64

An integer is rounded to 53 significant bits: with `s` bits beyond them it becomes a multiple of
`2 ^ s`, the even one of a tie (`Binary64.roundBits`). The rounding is monotone
(`roundBits_mono`), exact as long as no bit is dropped (`roundBits_of_dvd`), and off by half a
unit at most (`roundBits_error`). In units of `2 ^ -1074` this is what `Binary64.ofInt` holds of an
integer of 64 bits, so integers keep their order (`scaled_ofInt_mono`). They differ if a number of
53 bits lies between them (`scaled_ofInt_lt`), and are close if they do not
(`sub_le_of_scaled_ofInt_eq`).
-/

namespace Pedigree.Binary64

/-! ## Rounding a quotient -/

section Quotient

variable {num num' den : Nat}

theorem div_le_roundHalfEven (num den : Nat) : num / den ≤ roundHalfEven num den := by
  simp only [roundHalfEven]
  split_ifs <;> omega

theorem roundHalfEven_le (num den : Nat) : roundHalfEven num den ≤ num / den + 1 := by
  simp only [roundHalfEven]
  split_ifs <;> omega

theorem roundHalfEven_mono (h : num ≤ num') : roundHalfEven num den ≤ roundHalfEven num' den := by
  rcases Nat.lt_or_eq_of_le (Nat.div_le_div_right (c := den) h) with hlt | heq
  · calc roundHalfEven num den ≤ num / den + 1 := roundHalfEven_le num den
      _ ≤ num' / den := hlt
      _ ≤ roundHalfEven num' den := div_le_roundHalfEven num' den
  · -- With equal quotients the remainders are in order, and both round by the same rule.
    have hmod : num % den ≤ num' % den := by
      have hnum := Nat.div_add_mod num den
      have hnum' := Nat.div_add_mod num' den
      rw [heq] at hnum
      omega
    simp only [roundHalfEven]
    rw [heq]
    split_ifs <;> omega

/-- A quotient without remainder is not rounded. -/
theorem roundHalfEven_mul_cancel (h : 0 < den) (hdvd : den ∣ num) :
    roundHalfEven num den * den = num := by
  simp only [roundHalfEven, Nat.mod_eq_zero_of_dvd hdvd, Nat.mul_zero, if_pos h]
  exact Nat.div_mul_cancel hdvd

/-- The rounded quotient is off by half at most. -/
theorem roundHalfEven_error (num : Nat) (h : 0 < den) :
    2 * (roundHalfEven num den * den) ≤ 2 * num + den ∧
      2 * num ≤ 2 * (roundHalfEven num den * den) + den := by
  have hnum := Nat.div_add_mod' num den
  have hmod := Nat.mod_lt num h
  have hsucc : (num / den + 1) * den = num / den * den + den := Nat.succ_mul ..
  simp only [roundHalfEven]
  split_ifs <;> omega

end Quotient

/-! ## Rounding to 53 bits -/

/-- How many bits of a number do not fit the significand. -/
def excess (n : Nat) : Nat := Nat.log2 n - 52

/-- A number rounded to 53 significant bits. -/
def roundBits (n : Nat) : Nat := roundHalfEven n (2 ^ excess n) * 2 ^ excess n

section Bits

variable {m n : Nat}

theorem lt_two_pow_excess (n : Nat) : n < 2 ^ (53 + excess n) := by
  have hlog : n < 2 ^ (Nat.log2 n + 1) := Nat.lt_log2_self
  refine hlog.trans_le (Nat.pow_le_pow_right (by decide) ?_)
  unfold excess
  omega

theorem two_pow_excess_le (h : 0 < excess n) : 2 ^ (52 + excess n) ≤ n := by
  have hn : n ≠ 0 := by
    rintro rfl
    simp [excess] at h
  have hlog : 52 + excess n = Nat.log2 n := by
    unfold excess at *
    omega
  rw [hlog]
  exact Nat.log2_self_le hn

theorem roundHalfEven_excess_le (n : Nat) : roundHalfEven n (2 ^ excess n) ≤ 2 ^ 53 := by
  have hdiv : n / 2 ^ excess n < 2 ^ 53 := by
    rw [Nat.div_lt_iff_lt_mul (Nat.two_pow_pos _), ← Nat.pow_add]
    exact lt_two_pow_excess n
  exact (roundHalfEven_le ..).trans hdiv

theorem le_roundHalfEven_excess (h : 0 < excess n) : 2 ^ 52 ≤ roundHalfEven n (2 ^ excess n) := by
  have hdiv : 2 ^ 52 ≤ n / 2 ^ excess n := by
    rw [Nat.le_div_iff_mul_le (Nat.two_pow_pos _), ← Nat.pow_add]
    exact two_pow_excess_le h
  exact hdiv.trans (div_le_roundHalfEven ..)

theorem roundBits_mono (h : m ≤ n) : roundBits m ≤ roundBits n := by
  have hlog : excess m ≤ excess n := by
    rcases Nat.eq_zero_or_pos m with rfl | hm
    · simp [excess]
    · have hlog2 : Nat.log2 m ≤ Nat.log2 n :=
        (Nat.le_log2 (by omega)).2 ((Nat.log2_self_le (by omega)).trans h)
      exact Nat.sub_le_sub_right hlog2 52
  unfold roundBits
  rcases Nat.lt_or_eq_of_le hlog with hlt | heq
  · -- The longer number is at least a power of two that the shorter one is rounded below.
    calc roundHalfEven m (2 ^ excess m) * 2 ^ excess m
        ≤ 2 ^ 53 * 2 ^ excess m := Nat.mul_le_mul_right _ (roundHalfEven_excess_le m)
      _ = 2 ^ (53 + excess m) := (Nat.pow_add ..).symm
      _ ≤ 2 ^ (52 + excess n) := Nat.pow_le_pow_right (by decide) (by omega)
      _ = 2 ^ 52 * 2 ^ excess n := Nat.pow_add ..
      _ ≤ roundHalfEven n (2 ^ excess n) * 2 ^ excess n :=
        Nat.mul_le_mul_right _ (le_roundHalfEven_excess (by omega))
  · rw [heq]
    exact Nat.mul_le_mul_right _ (roundHalfEven_mono h)

/-- Nothing is lost if all bits beyond the significand are zero. -/
theorem roundBits_of_dvd (h : 2 ^ excess n ∣ n) : roundBits n = n :=
  roundHalfEven_mul_cancel (Nat.two_pow_pos _) h

/-- The rounded number is off by half of the last bit at most. -/
theorem roundBits_error (n : Nat) :
    2 * roundBits n ≤ 2 * n + 2 ^ excess n ∧ 2 * n ≤ 2 * roundBits n + 2 ^ excess n :=
  roundHalfEven_error n (Nat.two_pow_pos _)

end Bits

/-! ## Integers -/

/-- A number of 53 bits or fewer in the significand, scaled by a power of two in the range of
exponents, is held as it is. -/
theorem magnitude_ofSignificand {significand shift : Nat} (negative : Bool)
    (hle : significand ≤ 2 ^ 53) (hshift : significand < 2 ^ 52 → shift = 0)
    (hrange : shift < 2045) :
    (ofSignificand negative significand shift).magnitude = significand * 2 ^ shift := by
  simp only [ofSignificand]
  by_cases hsmall : significand < Nat.pow 2 52
  · obtain rfl := hshift hsmall
    rw [if_pos hsmall]
    simp [magnitude, Binary64.significand, unit, Nat.mod_eq_of_lt hsmall]
  · rw [if_neg hsmall]
    by_cases hfull : significand = Nat.pow 2 53
    · simp only [hfull, if_true]
      rw [dif_pos (by omega)]
      simp only [magnitude, Binary64.significand, unit, Fin.val_ofNat]
      rw [if_neg (by omega), show shift + 2 - 1 = shift + 1 from rfl, Nat.pow_eq, Nat.pow_succ]
      simp
      omega
    · have hlow : 2 ^ 52 ≤ significand := Nat.not_lt.1 hsmall
      have hhigh : significand < 2 ^ 53 := Nat.lt_of_le_of_ne hle hfull
      simp only [hfull, if_false]
      rw [dif_pos (by omega)]
      simp [magnitude, Binary64.significand, unit]
      omega

theorem negative_ofSignificand (negative : Bool) (significand shift : Nat) :
    (ofSignificand negative significand shift).negative = negative := by
  simp only [ofSignificand, infinity]
  split_ifs <;> rfl

/-- The absolute value of an integer in units of `2 ^ -k`. -/
def units (k : Nat) (n : Int) : Nat := n.natAbs * Nat.pow 2 k

section Units

variable {k : Nat} {n : Int}

theorem units_eq_mul (k : Nat) (n : Int) : units k n = n.natAbs * units k 1 := by
  unfold units
  rw [Int.natAbs_one, Nat.one_mul]

theorem units_of_nonneg (k : Nat) (h : 0 ≤ n) : (units k n : Int) = n * units k 1 := by
  rw [units_eq_mul, Int.natCast_mul, Int.natAbs_of_nonneg h]

theorem units_of_neg (k : Nat) (h : n < 0) : -(units k n : Int) = n * units k 1 := by
  rw [units_eq_mul, Int.natCast_mul, Int.ofNat_natAbs_of_nonpos (Int.le_of_lt h), Int.neg_mul,
    Int.neg_neg]

theorem units_one_pos (k : Nat) : 0 < units k 1 := by
  unfold units
  rw [Int.natAbs_one, Nat.one_mul]
  exact Nat.two_pow_pos k

theorem units_le_units {m : Int} (k : Nat) (h : m.natAbs ≤ n.natAbs) : units k m ≤ units k n :=
  Nat.mul_le_mul_right _ h

/-- Of an integer all bits but 53 are in excess. -/
theorem excess_units_le {bits : Nat} (h : n.natAbs < 2 ^ bits) (k : Nat) :
    excess (units k n) ≤ bits + k - 53 := by
  rcases Nat.eq_zero_or_pos (units k n) with hzero | hpos
  · rw [hzero]
    exact Nat.zero_le _
  · have hlt : units k n < 2 ^ (bits + k) := by
      rw [Nat.pow_add]
      exact Nat.mul_lt_mul_of_pos_right h (Nat.two_pow_pos k)
    have hlog := (Nat.log2_lt (Nat.ne_of_gt hpos)).2 hlt
    unfold excess
    omega

/-- Integers up to `2 ^ 53` are not rounded. -/
theorem roundBits_units (k : Nat) (h : n.natAbs ≤ 2 ^ 53) : roundBits (units k n) = units k n := by
  refine roundBits_of_dvd ?_
  rcases Nat.lt_or_eq_of_le h with hlt | heq
  · have hexcess := excess_units_le hlt k
    exact (Nat.pow_dvd_pow 2 (by omega)).trans (Nat.dvd_mul_left ..)
  · have hexcess : excess (units k n) ≤ 54 + k - 53 := excess_units_le (by omega) k
    rw [units, heq, Nat.pow_eq, ← Nat.pow_add] at *
    exact Nat.pow_dvd_pow 2 (by omega)

/-- An integer of 64 bits is off by less than its last 11 bits. -/
theorem two_pow_excess_units_le (k : Nat) (h : n.natAbs < 2 ^ 64) :
    2 ^ excess (units k n) ≤ 2 ^ 11 * units k 1 := by
  have hexcess : excess (units k n) ≤ 11 + k := (excess_units_le h k).trans (by omega)
  calc 2 ^ excess (units k n) ≤ 2 ^ (11 + k) := Nat.pow_le_pow_right (by decide) hexcess
    _ = 2 ^ 11 * units k 1 := by rw [Nat.pow_add, units, Int.natAbs_one, Nat.one_mul, Nat.pow_eq]

end Units

theorem ofInt_eq (n : Int) : ofInt n = ofSignificand (decide (n < 0))
    (roundHalfEven (units 1074 n) (2 ^ excess (units 1074 n))) (excess (units 1074 n)) := by
  unfold ofInt ofRatio excess units
  -- As a variable the exponent is not evaluated.
  generalize 1074 = k
  simp only [Nat.div_one, Nat.one_mul]
  rfl

/-- An integer of 64 bits is held with 53 of them. -/
theorem magnitude_ofInt {n : Int} (h : n.natAbs < 2 ^ 64) :
    (ofInt n).magnitude = roundBits (units 1074 n) := by
  have hrange := excess_units_le h 1074
  have hsmall : roundHalfEven (units 1074 n) (2 ^ excess (units 1074 n)) < 2 ^ 52 →
      excess (units 1074 n) = 0 := by
    intro hlt
    by_contra hne
    exact absurd (le_roundHalfEven_excess (Nat.pos_of_ne_zero hne)) (Nat.not_le.2 hlt)
  rw [ofInt_eq, magnitude_ofSignificand _ (roundHalfEven_excess_le _) hsmall (by omega), roundBits]

theorem negative_ofInt (n : Int) : (ofInt n).negative = decide (n < 0) := by
  rw [ofInt_eq, negative_ofSignificand]

variable {m n : Int}

theorem scaled_ofInt_of_nonneg (h : n.natAbs < 2 ^ 64) (hn : 0 ≤ n) :
    (ofInt n).scaled = roundBits (units 1074 n) := by
  rw [scaled, negative_ofInt, magnitude_ofInt h, decide_eq_false (Int.not_lt.2 hn),
    if_neg Bool.false_ne_true]

theorem scaled_ofInt_of_neg (h : n.natAbs < 2 ^ 64) (hn : n < 0) :
    (ofInt n).scaled = -(roundBits (units 1074 n) : Int) := by
  rw [scaled, negative_ofInt, magnitude_ofInt h, decide_eq_true hn, if_pos rfl]

/-- Rounding keeps the order of integers. -/
theorem scaled_ofInt_mono (hm : m.natAbs < 2 ^ 64) (hn : n.natAbs < 2 ^ 64) (h : m ≤ n) :
    (ofInt m).scaled ≤ (ofInt n).scaled := by
  rcases Int.lt_or_le m 0 with hmneg | hmneg
  · rw [scaled_ofInt_of_neg hm hmneg]
    rcases Int.lt_or_le n 0 with hnneg | hnneg
    · rw [scaled_ofInt_of_neg hn hnneg]
      have := roundBits_mono (units_le_units 1074 (show n.natAbs ≤ m.natAbs by omega))
      omega
    · rw [scaled_ofInt_of_nonneg hn hnneg]
      omega
  · rw [scaled_ofInt_of_nonneg hm hmneg, scaled_ofInt_of_nonneg hn (hmneg.trans h)]
    exact Int.ofNat_le.2 (roundBits_mono (units_le_units 1074 (by omega)))

/-- Integers up to `2 ^ 53` are held as they are. -/
theorem scaled_ofInt_of_le (h : n.natAbs ≤ 2 ^ 53) : (ofInt n).scaled = n * units 1074 1 := by
  have hrange : n.natAbs < 2 ^ 64 := Nat.lt_of_le_of_lt h (by decide)
  rcases Int.lt_or_le n 0 with hneg | hneg
  · rw [scaled_ofInt_of_neg hrange hneg, roundBits_units 1074 h, units_of_neg 1074 hneg]
  · rw [scaled_ofInt_of_nonneg hrange hneg, roundBits_units 1074 h, units_of_nonneg 1074 hneg]

/-- Integers differ once they are rounded, unless neither is below `2 ^ 53` or neither is
above `-2 ^ 53`. -/
theorem scaled_ofInt_lt (hm : m.natAbs < 2 ^ 64) (hn : n.natAbs < 2 ^ 64) (h : m < n)
    (hmhigh : m < 2 ^ 53) (hnlow : -2 ^ 53 < n) : (ofInt m).scaled < (ofInt n).scaled := by
  -- Between the two integers lies a step that is not rounded.
  obtain ⟨i, hmi, hin, hlow, hhigh⟩ : ∃ i, m ≤ i ∧ i < n ∧ -2 ^ 53 ≤ i ∧ i < 2 ^ 53 :=
    ⟨max m (-2 ^ 53), by omega⟩
  calc (ofInt m).scaled ≤ (ofInt i).scaled := scaled_ofInt_mono hm (by omega) hmi
    _ = i * units 1074 1 := scaled_ofInt_of_le (by omega)
    _ < (i + 1) * units 1074 1 := by
      have := units_one_pos 1074
      rw [Int.add_mul]
      omega
    _ = (ofInt (i + 1)).scaled := (scaled_ofInt_of_le (by omega)).symm
    _ ≤ (ofInt n).scaled := scaled_ofInt_mono (by omega) hn hin

/-- An integer of 64 bits is off by half of `2 ^ 11` at most. -/
theorem scaled_ofInt_error (h : n.natAbs < 2 ^ 64) :
    2 * (ofInt n).scaled ≤ 2 * (n * units 1074 1) + 2 ^ 11 * units 1074 1 ∧
      2 * (n * units 1074 1) ≤ 2 * (ofInt n).scaled + 2 ^ 11 * units 1074 1 := by
  have herror := roundBits_error (units 1074 n)
  have hexcess := two_pow_excess_units_le 1074 h
  rcases Int.lt_or_le n 0 with hneg | hneg
  · rw [scaled_ofInt_of_neg h hneg, ← units_of_neg 1074 hneg]
    omega
  · rw [scaled_ofInt_of_nonneg h hneg, ← units_of_nonneg 1074 hneg]
    omega

/-- Integers that are rounded to the same number are not far apart. -/
theorem sub_le_of_scaled_ofInt_eq (hm : m.natAbs < 2 ^ 64) (hn : n.natAbs < 2 ^ 64)
    (h : (ofInt m).scaled = (ofInt n).scaled) : n - m ≤ 2 ^ 11 := by
  have hpos : (0 : Int) < units 1074 1 := Int.natCast_pos.2 (units_one_pos 1074)
  refine Int.le_of_mul_le_mul_right ?_ hpos
  have hmabove := (scaled_ofInt_error hm).1
  have hnbelow := (scaled_ofInt_error hn).2
  rw [Int.sub_mul]
  omega

end Pedigree.Binary64
