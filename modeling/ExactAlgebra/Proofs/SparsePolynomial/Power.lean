import ExactAlgebra.Proofs.Power
import ExactAlgebra.Proofs.SparsePolynomial.Ring
import ExactAlgebra.SparsePolynomial.Power

/-!
Powers without moduli. Repeated squaring never forms a product of a larger degree than the power
itself, so a power exists as soon as its own degree is below the limit.
-/

namespace ExactAlgebra.SparsePolynomial

/-- A product that exists, as a polynomial over the rational numbers. -/
theorem exists_mul_toPolynomial {p q : SparsePolynomial}
    (h : p.degree + q.degree < exponentLimit) :
    ∃ product, p.mul q = .ok product ∧
      product.terms.toPolynomial = p.terms.toPolynomial * q.terms.toPolynomial ∧
      product.setting = p.setting ∧ product.degree ≤ p.degree + q.degree := by
  obtain ⟨product, hmul, hterms, hsetting⟩ := exists_mul_eq_ok (not_productOverflows_of_lt h)
  refine ⟨product, hmul, ?_, hsetting, ?_⟩
  · rw [hterms, Terms.toPolynomial_mul]
  · rw [degree, hterms]
    exact Terms.degree_mul_le p.terms q.terms

/-- Products are those of the polynomials over the rational numbers. -/
theorem multipliesAs_mul :
    MultipliesAs mul (fun (p : SparsePolynomial) f => p.terms.toPolynomial = f) := by
  rintro p q product _ _ rfl rfl h
  rw [(terms_setting_of_mul h).1, Terms.toPolynomial_mul]

/-- Products that begin in a setting stay there. -/
theorem multipliesAs_setting (setting : Setting) :
    MultipliesAs (M := Unit) mul (fun (p : SparsePolynomial) _ => p.setting = setting) :=
  fun _ _ _ _ _ hp _ h => (terms_setting_of_mul h).2.trans hp

/-- What the loop computes is the power of the polynomial ring, in the setting of its base. -/
theorem toPolynomial_setting_of_powerBy {p power : SparsePolynomial} {exponent : Nat}
    (h : powerBy mul (constantIn p.setting 1) p exponent = .ok power) :
    power.terms.toPolynomial = p.terms.toPolynomial ^ exponent ∧ power.setting = p.setting := by
  have hone : (constantIn p.setting 1).setting = p.setting := rfl
  refine ⟨?_, (multipliesAs_setting p.setting).powerBy (x := ()) (y := ()) hone rfl h⟩
  rw [multipliesAs_mul.powerBy (toPolynomial_constantIn _ _) rfl h, Polynomial.C_1, one_mul]

/-- A power that exists is that of the polynomial ring, in the setting of its base. -/
theorem toPolynomial_setting_of_exactPow {p power : SparsePolynomial} {exponent : Nat}
    (h : p.exactPow exponent = .ok power) :
    power.terms.toPolynomial = p.terms.toPolynomial ^ exponent ∧ power.setting = p.setting := by
  obtain ⟨_, _, hpower⟩ := eq_ok_of_bind h
  exact toPolynomial_setting_of_powerBy hpower

theorem degree_of_toPolynomial_eq_pow {p power : SparsePolynomial} {exponent : Nat}
    (h : power.terms.toPolynomial = p.terms.toPolynomial ^ exponent) :
    power.degree = p.degree * exponent := by
  rw [degree, ← Terms.natDegree_toPolynomial, h, Polynomial.natDegree_pow,
    Terms.natDegree_toPolynomial, Nat.mul_comm, degree]

/-- Degrees are multiplied by the exponent. -/
theorem degree_of_exactPow {p power : SparsePolynomial} {exponent : Nat}
    (h : p.exactPow exponent = .ok power) : power.degree = p.degree * exponent :=
  degree_of_toPolynomial_eq_pow (toPolynomial_setting_of_exactPow h).1

/-- The loop comes through when the degree of the power is below the limit. -/
theorem exists_powerBy_mul {p : SparsePolynomial} {exponent : Nat}
    (h : p.degree * exponent < exponentLimit) :
    ∃ power, powerBy mul (constantIn p.setting 1) p exponent = .ok power := by
  have hproducts : ∀ a b : SparsePolynomial, a.degree + b.degree < exponentLimit →
      ∃ c, mul a b = .ok c ∧ c.degree ≤ a.degree + b.degree := by
    intro a b hsum
    obtain ⟨product, hproduct, _, _, hdegree⟩ := exists_mul_toPolynomial hsum
    exact ⟨product, hproduct, hdegree⟩
  have hsize : (constantIn p.setting 1).degree + p.degree * exponent < exponentLimit := by
    rwa [degree_constantIn, Nat.zero_add]
  exact exists_powerBy_of_size hproducts hsize

theorem exists_exactPow {p : SparsePolynomial} {exponent : Nat}
    (h : p.degree * exponent < exponentLimit) :
    ∃ power, p.exactPow exponent = .ok power ∧
      power.terms.toPolynomial = p.terms.toPolynomial ^ exponent ∧
      power.setting = p.setting := by
  obtain ⟨power, hpower⟩ := exists_powerBy_mul h
  have hexact : p.exactPow exponent = .ok power := by
    rw [exactPow, requirePowerDegree, if_pos h]
    exact hpower
  exact ⟨power, hexact, toPolynomial_setting_of_exactPow hexact⟩

/-- The only failure of an exact power is an overflow of its degree. -/
theorem exactPow_eq_error_iff {p : SparsePolynomial} {exponent : Nat} {cause : Error} :
    p.exactPow exponent = .error cause ↔
      exponentLimit ≤ p.degree * exponent ∧ cause = .overflow .polynomialDegree := by
  by_cases hdegree : p.degree * exponent < exponentLimit
  · obtain ⟨power, hpower, -⟩ := exists_exactPow hdegree
    simp [hpower, hdegree]
  · have hoverflow : p.exactPow exponent = .error (.overflow .polynomialDegree) := by
      rw [exactPow, requirePowerDegree, if_neg hdegree]
      rfl
    rw [hoverflow]
    simp [Nat.le_of_not_lt hdegree, eq_comm]

section Free

variable {p : SparsePolynomial} {exponent : Nat}

theorem isFree_of_setting_eq {symbol : Char} (h : p.setting = .plain symbol) :
    p.setting.isFree = true := by
  rw [h]
  rfl

theorem pow_of_isFree (hfree : p.setting.isFree = true) (exponent : Nat) :
    p.pow exponent = p.exactPow exponent :=
  if_pos hfree

/-- Without moduli, the only failure of a power is an overflow of its degree. -/
theorem pow_eq_error_iff (hfree : p.setting.isFree = true) {cause : Error} :
    p.pow exponent = .error cause ↔
      exponentLimit ≤ p.degree * exponent ∧ cause = .overflow .polynomialDegree := by
  rw [pow_of_isFree hfree, exactPow_eq_error_iff]

/-- Without moduli, a power is that of the polynomial ring as soon as its degree fits. -/
theorem exists_pow (hfree : p.setting.isFree = true)
    (hdegree : p.degree * exponent < exponentLimit) :
    ∃ power, p.pow exponent = .ok power ∧ power.setting = p.setting ∧
      power.terms.toPolynomial = p.terms.toPolynomial ^ exponent := by
  obtain ⟨power, hpower, hterms, hsetting⟩ := exists_exactPow hdegree
  exact ⟨power, (pow_of_isFree hfree exponent).trans hpower, hsetting, hterms⟩

end Free

end ExactAlgebra.SparsePolynomial
