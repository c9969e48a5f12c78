import ExactAlgebra.Rational.Basic
import Mathlib.Algebra.Order.Floor.Ring
import Mathlib.Data.Rat.Floor

/-!
The remainder that takes the sign of its modulus. It lies between zero and the modulus, and numbers
have the same remainder if they differ by an integer multiple of the modulus. For integers it is the
remainder of their division with the quotient rounded down.
-/

namespace ExactAlgebra

theorem floorMod_eq_mul_fract (value : ℚ) {modulus : ℚ} (h : modulus ≠ 0) :
    floorMod value modulus = modulus * Int.fract (value / modulus) := by
  have hfloor : (value / modulus).floor = ⌊value / modulus⌋ := rfl
  rw [floorMod, hfloor, Int.fract, mul_sub, mul_div_cancel₀ _ h]

/-- The remainder by a positive modulus is not negative and below the modulus. -/
theorem floorMod_mem_of_pos (value : ℚ) {modulus : ℚ} (h : 0 < modulus) :
    0 ≤ floorMod value modulus ∧ floorMod value modulus < modulus := by
  rw [floorMod_eq_mul_fract value h.ne']
  exact ⟨mul_nonneg h.le (Int.fract_nonneg _), mul_lt_of_lt_one_right h (Int.fract_lt_one _)⟩

/-- The remainder by a negative modulus is not positive and above the modulus. -/
theorem floorMod_mem_of_neg (value : ℚ) {modulus : ℚ} (h : modulus < 0) :
    modulus < floorMod value modulus ∧ floorMod value modulus ≤ 0 := by
  rw [floorMod_eq_mul_fract value h.ne]
  exact ⟨lt_mul_of_lt_one_right h (Int.fract_lt_one _),
    mul_nonpos_of_nonpos_of_nonneg h.le (Int.fract_nonneg _)⟩

/-- What is taken out of a number is an integer multiple of the modulus. -/
theorem exists_sub_floorMod (value modulus : ℚ) :
    ∃ k : ℤ, value - floorMod value modulus = k * modulus := by
  refine ⟨(value / modulus).floor, ?_⟩
  rw [floorMod, sub_sub_cancel, mul_comm]

/-- Numbers have the same remainder if they differ by an integer multiple of the modulus. -/
theorem floorMod_eq_floorMod_iff (a b : ℚ) {modulus : ℚ} (h : modulus ≠ 0) :
    floorMod a modulus = floorMod b modulus ↔ ∃ k : ℤ, a - b = k * modulus := by
  rw [floorMod_eq_mul_fract a h, floorMod_eq_mul_fract b h, mul_right_inj' h, Int.fract_eq_fract]
  simp only [← sub_div, div_eq_iff h]

/-- A number that differs from another by an integer multiple of the modulus, and lies between zero
and the modulus, is the remainder of the other. -/
theorem eq_floorMod {value residue modulus : ℚ} (h : modulus ≠ 0)
    (hmultiple : ∃ k : ℤ, value - residue = k * modulus)
    (hpos : 0 < modulus → 0 ≤ residue ∧ residue < modulus)
    (hneg : modulus < 0 → modulus < residue ∧ residue ≤ 0) : residue = floorMod value modulus := by
  have hquotient : 0 ≤ residue / modulus ∧ residue / modulus < 1 := by
    rcases lt_or_gt_of_ne h with hlt | hgt
    · rw [div_lt_one_of_neg hlt]
      exact ⟨div_nonneg_of_nonpos (hneg hlt).2 hlt.le, (hneg hlt).1⟩
    · rw [div_lt_one hgt]
      exact ⟨div_nonneg (hpos hgt).1 hgt.le, (hpos hgt).2⟩
  rw [(floorMod_eq_floorMod_iff value residue h).2 hmultiple, floorMod_eq_mul_fract residue h,
    Int.fract_eq_self.2 hquotient, mul_div_cancel₀ _ h]

theorem floor_intCast_div_intCast (a k : ℤ) : ⌊(a : ℚ) / k⌋ = a.fdiv k := by
  rcases Int.le_total 0 k with hk | hk
  · obtain ⟨n, rfl⟩ := Int.eq_ofNat_of_zero_le hk
    rw [Int.fdiv_eq_ediv_of_nonneg a hk]
    exact_mod_cast Rat.floor_intCast_div_natCast a n
  · obtain ⟨n, hn⟩ := Int.eq_ofNat_of_zero_le (Int.neg_nonneg.2 hk)
    obtain rfl : k = -(n : ℤ) := by
      omega
    rw [← Int.neg_fdiv_neg, neg_neg, Int.fdiv_eq_ediv_of_nonneg _ (Int.natCast_nonneg n),
      ← Rat.floor_intCast_div_natCast]
    push_cast
    rw [div_neg, neg_div]

/-- For integers the remainder is that of the division that rounds down. -/
theorem floorMod_intCast (a k : ℤ) : floorMod (a : ℚ) (k : ℚ) = (a.fmod k : ℤ) := by
  have hfloor : ((a : ℚ) / k).floor = a.fdiv k := floor_intCast_div_intCast a k
  rw [floorMod, hfloor, Int.fmod_def]
  push_cast
  rfl

/-- The remainder of an integer lies between zero and the modulus. -/
theorem fmod_mem (a k : ℤ) :
    (0 < k → 0 ≤ a.fmod k ∧ a.fmod k < k) ∧ (k < 0 → k < a.fmod k ∧ a.fmod k ≤ 0) := by
  constructor
  · intro hk
    have hmem := floorMod_mem_of_pos (a : ℚ) (Int.cast_pos.2 hk)
    rw [floorMod_intCast] at hmem
    exact_mod_cast hmem
  · intro hk
    have hmem := floorMod_mem_of_neg (a : ℚ) (Int.cast_lt_zero.2 hk)
    rw [floorMod_intCast] at hmem
    exact_mod_cast hmem

end ExactAlgebra
