import ExactAlgebra.Proofs.SparsePolynomial.Division

/-!
Constant polynomials as factors and divisors. A product with a constant is the multiple by its
value, and long division by a nonzero constant divides every coefficient: the multiple of the
quotient is the whole dividend, so nothing is left, although the degree of what is left never falls
below that of the divisor.
-/

namespace ExactAlgebra.SparsePolynomial

open Polynomial

variable {p : SparsePolynomial} {c : ℚ}

@[simp] theorem toPolynomial_scale (p : SparsePolynomial) (c : ℚ) :
    (p.scale c).terms.toPolynomial = p.terms.toPolynomial * C c :=
  Terms.toPolynomial_scale p.terms c

theorem scale_scale (p : SparsePolynomial) (a b : ℚ) : (p.scale a).scale b = p.scale (a * b) := by
  refine eq_of_toPolynomial_eq ?_ rfl
  rw [toPolynomial_scale, toPolynomial_scale, toPolynomial_scale, C_mul, mul_assoc]

theorem scale_one (p : SparsePolynomial) : p.scale 1 = p := by
  refine eq_of_toPolynomial_eq ?_ rfl
  rw [toPolynomial_scale, C_1, mul_one]

/-- Dividing the coefficients by a number multiplies them by its inverse. -/
theorem mapCoefficients_div (p : SparsePolynomial) (c : ℚ) :
    p.mapCoefficients (· / c) = p.scale c⁻¹ := by
  simp only [scale, div_eq_mul_inv]

theorem divScalar_eq (hc : c ≠ 0) (p : SparsePolynomial) :
    p.divScalar c = .ok (p.scale c⁻¹) := by
  rw [divScalar, if_neg hc, mapCoefficients_div]

/-- The degree of a constant adds nothing, so the product always exists. -/
theorem mul_constant (p : SparsePolynomial) (c : ℚ) : p.mul (constant c) = .ok (p.scale c) := by
  have hdegree : p.degree + (constant c).degree < exponentLimit := by
    rw [constant, degree_constantIn]
    exact p.degree_lt
  obtain ⟨product, hproduct, hterms, hsetting⟩ :=
    exists_mul_eq_ok (not_productOverflows_of_lt hdegree)
  have hscale : product = p.scale c := by
    refine eq_of_toPolynomial_eq ?_ hsetting
    rw [hterms, Terms.toPolynomial_mul, constant, toPolynomial_constantIn, toPolynomial_scale]
  rw [hproduct, hscale]

theorem terms_constant_ne_zero (hc : c ≠ 0) : (constant c).terms ≠ 0 := by
  intro hzero
  have hpolynomial : (C c : ℚ[X]) = 0 := by
    rw [← toPolynomial_constantIn .standard c]
    exact (Terms.toPolynomial_eq_zero_iff _).2 hzero
  exact hc (C_eq_zero.1 hpolynomial)

/-- The multiple of the quotient by the constant is the whole dividend. -/
theorem isDivision_constant (hc : c ≠ 0) (p : SparsePolynomial) :
    IsDivision p (constant c) (p.scale c⁻¹) (zeroIn p.setting) := by
  have hproduct : (p.scale c⁻¹).mul (constant c) = .ok p := by
    rw [mul_constant, scale_scale, inv_mul_cancel₀ hc, scale_one]
  exact isDivision_of_mul hproduct

theorem divMod_constant (hc : c ≠ 0) (p : SparsePolynomial) :
    p.divMod (constant c) = .ok (p.scale c⁻¹, zeroIn p.setting) := by
  have hterms := (isDivision_constant hc p).divMod_eq (terms_constant_ne_zero hc)
  have hquotient : p.quotient (constant c) = p.scale c⁻¹ :=
    eq_of_toPolynomial_eq (congrArg (fun division => division.1.toPolynomial) hterms) rfl
  have hremainder : p.remainder (constant c) = zeroIn p.setting :=
    eq_of_toPolynomial_eq (congrArg (fun division => division.2.toPolynomial) hterms) rfl
  rw [divMod_eq_ok (terms_constant_ne_zero hc), hquotient, hremainder]

/-- The loop on the stores ends with the divided coefficients and the store of zero. -/
theorem endsIn_constant_iff (hc : c ≠ 0) (p : SparsePolynomial) {last : LongDivision} :
    LongDivision.EndsIn (constant c).terms.store ⟨.new, p.terms.store⟩ last ↔
      last = ⟨p.terms.store.mapCoefficients (· / c), .new⟩ := by
  have hstore : p.terms.store.mapCoefficients (· / c) = (p.scale c⁻¹).terms.store := by
    rw [← mapCoefficients_div]
    exact TermStore.mapCoefficients_eq_store (zero_div c) p.terms
  have hterms := (isDivision_constant hc p).divMod_eq (terms_constant_ne_zero hc)
  rw [LongDivision.endsIn_iff (terms_constant_ne_zero hc) p.below, hterms, hstore]
  rfl

/-- The loop over the products of all terms leaves the multiplied coefficients. -/
theorem accumulateProducts_constant (p : SparsePolynomial) (c : ℚ) :
    TermStore.accumulateProducts p.terms.store.entries (constant c).terms.store.entries =
      p.terms.store.mapCoefficients (· * c) := by
  have hterms : p.terms * (constant c).terms = (p.scale c).terms :=
    (terms_setting_of_mul (mul_constant p c)).1.symm
  rw [TermStore.accumulateProducts_eq_store_mul, hterms]
  exact (TermStore.mapCoefficients_eq_store (zero_mul c) p.terms).symm

/-- A constant polynomial acts as its value. The product with any constant is the multiple by the
number. Division by a nonzero constant has the coefficients divided by the number as its quotient
and leaves zero, in the loop on the stores as well, and division by the number undoes the multiple.
All results keep the setting of the polynomial. -/
theorem constant_actsAsNumber (p : SparsePolynomial) (c : ℚ) :
    p.mul (constant c) = .ok (p.scale c) ∧
    TermStore.accumulateProducts p.terms.store.entries (constant c).terms.store.entries =
      p.terms.store.mapCoefficients (· * c) ∧
    (c ≠ 0 → ∃ quotient, p.divScalar c = .ok quotient ∧
      p.divMod (constant c) = .ok (quotient, zeroIn p.setting) ∧
      (∀ last, LongDivision.EndsIn (constant c).terms.store ⟨.new, p.terms.store⟩ last ↔
        last = ⟨p.terms.store.mapCoefficients (· / c), .new⟩) ∧
      (p.scale c).divScalar c = .ok p) := by
  refine ⟨mul_constant p c, accumulateProducts_constant p c, fun hc => ?_⟩
  refine ⟨p.scale c⁻¹, divScalar_eq hc p, divMod_constant hc p,
    fun last => endsIn_constant_iff hc p, ?_⟩
  rw [divScalar_eq hc, scale_scale, mul_inv_cancel₀ hc, scale_one]

end ExactAlgebra.SparsePolynomial
