import ExactAlgebra.Proofs.Rational.FloorMod
import Mathlib.Algebra.Polynomial.FieldDivision
import Mathlib.RingTheory.Ideal.Span
import Mathlib.Tactic.LinearCombination

/-!
Polynomials over the integers modulo an integer and a polynomial. Every class has one representative
that is smaller than the polynomial and has its coefficients between zero and the integer. Division
by the polynomial, followed by division of the coefficients, finds it.
-/

namespace ExactAlgebra

open Polynomial

/-- What polynomials over the integers are taken modulo: a nonzero integer, a polynomial that can be
divided by, both or neither. -/
structure IntegerModuli where
  coefficient : Option ℤ
  polynomial : Option ℤ[X]
  coefficient_ne_zero : ∀ k ∈ coefficient, k ≠ 0
  leadingCoeff : ∀ M ∈ polynomial, M.leadingCoeff = 1 ∨ M.leadingCoeff = -1

/-- The polynomial with the sign that makes it monic. -/
noncomputable def monicOf (M : ℤ[X]) : ℤ[X] := M * C M.leadingCoeff

section MonicOf

variable {M : ℤ[X]}

theorem leadingCoeff_mul_self_eq_one (h : M.leadingCoeff = 1 ∨ M.leadingCoeff = -1) :
    M.leadingCoeff * M.leadingCoeff = 1 := by
  rcases h with h | h <;> rw [h] <;> rfl

theorem monic_monicOf (h : M.leadingCoeff = 1 ∨ M.leadingCoeff = -1) : (monicOf M).Monic := by
  rw [Monic, monicOf, leadingCoeff_mul, leadingCoeff_C]
  exact leadingCoeff_mul_self_eq_one h

theorem monicOf_mul_leadingCoeff (h : M.leadingCoeff = 1 ∨ M.leadingCoeff = -1) :
    monicOf M * C M.leadingCoeff = M := by
  rw [monicOf, mul_assoc, ← C_mul, leadingCoeff_mul_self_eq_one h, C_1, mul_one]

theorem degree_monicOf (h : M.leadingCoeff = 1 ∨ M.leadingCoeff = -1) :
    (monicOf M).degree = M.degree := by
  have hne : M.leadingCoeff ≠ 0 := by
    rcases h with h | h <;> rw [h] <;> decide
  rw [monicOf, degree_mul_C hne]

end MonicOf

namespace IntegerModuli

variable (moduli : IntegerModuli)

noncomputable def remainder (f : ℤ[X]) : ℤ[X] :=
  match moduli.polynomial with
  | none => f
  | some M => f %ₘ monicOf M

/-- Every coefficient reduced by the integer, with quotients rounded down. -/
noncomputable def floorCoefficients (f : ℤ[X]) : ℤ[X] :=
  match moduli.coefficient with
  | none => f
  | some k => f.sum fun exponent coefficient => monomial exponent (coefficient.fmod k)

/-- The remainder by the polynomial with its coefficients reduced. -/
noncomputable def reduce (f : ℤ[X]) : ℤ[X] :=
  moduli.floorCoefficients (moduli.remainder f)

noncomputable def ideal : Ideal ℤ[X] :=
  Ideal.span {C (moduli.coefficient.getD 0), moduli.polynomial.getD 0}

/-- A polynomial that is smaller than the polynomial modulus, with its coefficients between zero and
the coefficient modulus. -/
structure IsReduced (R : ℤ[X]) : Prop where
  degree_lt : ∀ M ∈ moduli.polynomial, R.degree < M.degree
  coeff_mem : ∀ k ∈ moduli.coefficient, ∀ exponent,
    (0 < k → 0 ≤ R.coeff exponent ∧ R.coeff exponent < k) ∧
      (k < 0 → k < R.coeff exponent ∧ R.coeff exponent ≤ 0)

variable {moduli} {f g R S : ℤ[X]}

theorem coefficient_mul_mem (f : ℤ[X]) : C (moduli.coefficient.getD 0) * f ∈ moduli.ideal :=
  Ideal.mul_mem_right _ _ (Ideal.subset_span (Set.mem_insert _ _))

theorem polynomial_mul_mem (f : ℤ[X]) : moduli.polynomial.getD 0 * f ∈ moduli.ideal :=
  Ideal.mul_mem_right _ _ (Ideal.subset_span (Set.mem_insert_of_mem _ rfl))

theorem remainder_of_none (h : moduli.polynomial = none) (f : ℤ[X]) : moduli.remainder f = f := by
  rw [remainder, h]

theorem remainder_of_some {M : ℤ[X]} (h : moduli.polynomial = some M) (f : ℤ[X]) :
    moduli.remainder f = f %ₘ monicOf M := by
  rw [remainder, h]

theorem degree_remainder_lt {M : ℤ[X]} (hM : M ∈ moduli.polynomial) (f : ℤ[X]) :
    (moduli.remainder f).degree < M.degree := by
  have hlead := moduli.leadingCoeff M hM
  rw [remainder_of_some hM, ← degree_monicOf hlead]
  exact degree_modByMonic_lt f (monic_monicOf hlead)

/-- The remainder differs from the polynomial by a multiple of the modulus. -/
theorem remainder_sub_mem (f : ℤ[X]) : moduli.remainder f - f ∈ moduli.ideal := by
  cases hM : moduli.polynomial with
  | none =>
      rw [remainder_of_none hM, sub_self]
      exact zero_mem _
  | some M =>
      have hmultiple : moduli.remainder f - f =
          moduli.polynomial.getD 0 * (-(C M.leadingCoeff * (f /ₘ monicOf M))) := by
        have hdivision := modByMonic_add_div f (monicOf M)
        rw [remainder_of_some hM, hM, Option.getD_some]
        rw [monicOf] at hdivision ⊢
        linear_combination hdivision
      rw [hmultiple]
      exact polynomial_mul_mem _

theorem remainder_eq_self (h : ∀ M ∈ moduli.polynomial, f.degree < M.degree) :
    moduli.remainder f = f := by
  cases hM : moduli.polynomial with
  | none => exact remainder_of_none hM f
  | some M =>
      have hlead := moduli.leadingCoeff M hM
      rw [remainder_of_some hM]
      refine (modByMonic_eq_self_iff (monic_monicOf hlead)).2 ?_
      rw [degree_monicOf hlead]
      exact h M hM

/-- Of a combination of the moduli only a multiple of the integer remains. -/
theorem remainder_combination (a b : ℤ[X]) (k : ℤ) :
    moduli.remainder (a * C k + b * moduli.polynomial.getD 0) = C k * moduli.remainder a := by
  cases hM : moduli.polynomial with
  | none =>
      rw [remainder_of_none hM, remainder_of_none hM, Option.getD_none, mul_zero, add_zero,
        mul_comm]
  | some M =>
      have hlead := moduli.leadingCoeff M hM
      have hmultiple : b * M = b * C M.leadingCoeff * monicOf M := by
        conv_lhs => rw [← monicOf_mul_leadingCoeff hlead]
        ring
      rw [remainder_of_some hM, remainder_of_some hM, Option.getD_some, add_modByMonic,
        hmultiple, mul_self_modByMonic (monic_monicOf hlead), add_zero, mul_comm a,
        ← smul_eq_C_mul, smul_modByMonic, smul_eq_C_mul]

theorem coeff_floorCoefficients {k : ℤ} (hk : k ∈ moduli.coefficient) (f : ℤ[X])
    (exponent : ℕ) : (moduli.floorCoefficients f).coeff exponent = (f.coeff exponent).fmod k := by
  rw [Option.mem_def] at hk
  rw [floorCoefficients, hk]
  simp only [sum_def, finsetSum_coeff, coeff_monomial, Finset.sum_ite_eq', mem_support_iff]
  split
  · rfl
  · rename_i hzero
    rw [not_not.1 hzero, Int.zero_fmod]

theorem floorCoefficients_eq_self (hk : moduli.coefficient = none) (f : ℤ[X]) :
    moduli.floorCoefficients f = f := by
  rw [floorCoefficients, hk]

/-- Reducing the coefficients takes multiples of the integer away. -/
theorem floorCoefficients_sub_mem (f : ℤ[X]) :
    moduli.floorCoefficients f - f ∈ moduli.ideal := by
  cases hk : moduli.coefficient with
  | none =>
      rw [floorCoefficients_eq_self hk, sub_self]
      exact zero_mem _
  | some k =>
      have hdvd : C k ∣ moduli.floorCoefficients f - f := by
        rw [C_dvd_iff_dvd_coeff]
        intro exponent
        refine ⟨-(f.coeff exponent).fdiv k, ?_⟩
        rw [coeff_sub, coeff_floorCoefficients hk, Int.fmod_def]
        ring
      obtain ⟨quotient, hquotient⟩ := hdvd
      rw [hquotient]
      simpa [hk] using @coefficient_mul_mem moduli quotient

theorem degree_floorCoefficients_le (f : ℤ[X]) :
    (moduli.floorCoefficients f).degree ≤ f.degree := by
  cases hk : moduli.coefficient with
  | none => rw [floorCoefficients_eq_self hk]
  | some k =>
      rw [degree_le_iff_coeff_zero]
      intro exponent hlt
      rw [coeff_floorCoefficients hk, coeff_eq_zero_of_degree_lt hlt, Int.zero_fmod]

theorem isReduced_reduce (f : ℤ[X]) : moduli.IsReduced (moduli.reduce f) where
  degree_lt M hM := lt_of_le_of_lt (degree_floorCoefficients_le _) (degree_remainder_lt hM f)
  coeff_mem k hk exponent := by
    rw [reduce, coeff_floorCoefficients hk]
    exact fmod_mem _ k

/-- Reducing stays in the class modulo the ideal. -/
theorem reduce_sub_mem (f : ℤ[X]) : moduli.reduce f - f ∈ moduli.ideal := by
  have hsum := add_mem (@floorCoefficients_sub_mem moduli (moduli.remainder f))
    (remainder_sub_mem f)
  rwa [sub_add_sub_cancel] at hsum

/-- A difference of reduced polynomials is smaller than the polynomial modulus. -/
theorem degree_sub_lt (hR : moduli.IsReduced R) (hS : moduli.IsReduced S) {M : ℤ[X]}
    (hM : M ∈ moduli.polynomial) : (R - S).degree < M.degree :=
  lt_of_le_of_lt (degree_sub_le R S) (max_lt (hR.degree_lt M hM) (hS.degree_lt M hM))

/-- A difference of reduced coefficients is smaller than the coefficient modulus. -/
theorem natAbs_coeff_sub_lt (hR : moduli.IsReduced R) (hS : moduli.IsReduced S) {k : ℤ}
    (hk : k ∈ moduli.coefficient) (exponent : ℕ) :
    ((R - S).coeff exponent).natAbs < k.natAbs := by
  have hne := moduli.coefficient_ne_zero k hk
  have hRmem := hR.coeff_mem k hk exponent
  have hSmem := hS.coeff_mem k hk exponent
  rw [coeff_sub]
  omega

/-- Each class has at most one reduced polynomial. -/
theorem eq_of_isReduced (hR : moduli.IsReduced R) (hS : moduli.IsReduced S)
    (h : R - S ∈ moduli.ideal) : R = S := by
  obtain ⟨a, b, hcombination⟩ := Ideal.mem_span_pair.1 h
  have hremainder : R - S = C (moduli.coefficient.getD 0) * moduli.remainder a := by
    rw [← remainder_combination a b, hcombination]
    exact (remainder_eq_self fun M hM => degree_sub_lt hR hS hM).symm
  rw [← sub_eq_zero]
  cases hk : moduli.coefficient with
  | none => rw [hremainder, hk, Option.getD_none, C_0, zero_mul]
  | some k =>
      ext exponent
      rw [coeff_zero]
      refine Int.eq_zero_of_dvd_of_natAbs_lt_natAbs ?_ (natAbs_coeff_sub_lt hR hS hk exponent)
      rw [hremainder, hk, Option.getD_some, coeff_C_mul]
      exact dvd_mul_right _ _

/-- Reducing finds the reduced polynomial of a class. -/
theorem reduce_eq_of_isReduced (hR : moduli.IsReduced R) (h : R - f ∈ moduli.ideal) :
    moduli.reduce f = R := by
  apply eq_of_isReduced (isReduced_reduce f) hR
  have hdifference := sub_mem (@reduce_sub_mem moduli f) h
  rwa [sub_sub_sub_cancel_right] at hdifference

/-- Polynomials of one class are reduced to the same polynomial. -/
theorem reduce_congr (h : f - g ∈ moduli.ideal) : moduli.reduce f = moduli.reduce g := by
  refine (reduce_eq_of_isReduced (isReduced_reduce f) ?_).symm
  have hsum := add_mem (@reduce_sub_mem moduli f) h
  rwa [sub_add_sub_cancel] at hsum

end IntegerModuli

end ExactAlgebra
