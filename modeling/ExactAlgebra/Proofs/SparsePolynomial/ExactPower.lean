import ExactAlgebra.Proofs.SparsePolynomial.Power

/-!
The laws of powers without moduli. An outcome is recognized as a power by what it stands for: the
power of the polynomial ring where it is a polynomial, and an overflow only where the degree of the
power is beyond the limit. So the loop fails where the check before it fails and nowhere else, a
power is the product of so many copies, exponents add up in products, and they multiply in powers of
powers. Each law is an equation between outcomes: where one side overflows, so does the other.
-/

namespace ExactAlgebra.SparsePolynomial

open Polynomial

variable {p power : SparsePolynomial} {exponent m n : Nat}

/-- What stands for the power, and overflows only with its degree, is the power. -/
theorem eq_exactPow {outcome : Except Error SparsePolynomial}
    (hok : ∀ power, outcome = .ok power →
      power.terms.toPolynomial = p.terms.toPolynomial ^ exponent ∧ power.setting = p.setting)
    (herror : ∀ cause, outcome = .error cause →
      exponentLimit ≤ p.degree * exponent ∧ cause = .overflow .polynomialDegree) :
    outcome = p.exactPow exponent := by
  cases houtcome : outcome with
  | error cause => exact (exactPow_eq_error_iff.2 (herror cause houtcome)).symm
  | ok power =>
      obtain ⟨hterms, hsetting⟩ := hok power houtcome
      have hdegree : p.degree * exponent < exponentLimit :=
        degree_of_toPolynomial_eq_pow hterms ▸ power.degree_lt
      obtain ⟨exact, hexact, hexactTerms, hexactSetting⟩ := exists_exactPow hdegree
      rw [hexact]
      exact congrArg Except.ok
        (eq_of_toPolynomial_eq (hterms.trans hexactTerms.symm) (hsetting.trans hexactSetting.symm))

/-- The check of the degree refuses nothing that the loop would not refuse. -/
theorem exactPow_eq_powerBy (p : SparsePolynomial) (exponent : Nat) :
    powerBy mul (constantIn p.setting 1) p exponent = p.exactPow exponent := by
  refine eq_exactPow (fun power => toPolynomial_setting_of_powerBy) fun cause hcause => ⟨?_, ?_⟩
  · by_contra hdegree
    obtain ⟨power, hpower⟩ := exists_powerBy_mul (Nat.lt_of_not_le hdegree)
    rw [hpower] at hcause
    cases hcause
  · obtain ⟨a, b, -, hproduct⟩ := exists_mul_eq_error_of_powerBy hcause
    exact (mul_eq_error_iff.1 hproduct).2

/-- No product on the way to a power has a larger degree than the power, so all of them exist when
the power does. -/
theorem exists_mul_of_asksFor_power {a b : SparsePolynomial}
    (hdegree : p.degree * exponent < exponentLimit)
    (hasks : AsksFor mul (constantIn p.setting 1) p exponent a b) :
    ∃ product, a.mul b = .ok product ∧ product.degree ≤ p.degree * exponent := by
  have hproducts : ∀ a b c : SparsePolynomial, a.degree + b.degree < exponentLimit →
      a.mul b = .ok c → c.degree ≤ a.degree + b.degree := by
    intro a b c _ hproduct
    rw [degree, (terms_setting_of_mul hproduct).1]
    exact Terms.degree_mul_le a.terms b.terms
  have hsize : (constantIn p.setting 1).degree + p.degree * exponent = p.degree * exponent := by
    rw [degree_constantIn, Nat.zero_add]
  have hle := size_le_of_asksFor hproducts hasks (hsize.trans_lt hdegree)
  rw [hsize] at hle
  obtain ⟨product, hproduct, -, -, hproductDegree⟩ :=
    exists_mul_toPolynomial (Nat.lt_of_le_of_lt hle hdegree)
  exact ⟨product, hproduct, hproductDegree.trans hle⟩

/-- Exponents add up in products of powers. -/
theorem mul_of_exactPow {pm pn : SparsePolynomial} (hm : p.exactPow m = .ok pm)
    (hn : p.exactPow n = .ok pn) : pm.mul pn = p.exactPow (m + n) := by
  obtain ⟨hmTerms, hmSetting⟩ := toPolynomial_setting_of_exactPow hm
  obtain ⟨hnTerms, -⟩ := toPolynomial_setting_of_exactPow hn
  refine eq_exactPow (fun product hproduct => ?_) fun cause hcause => ?_
  · obtain ⟨hterms, hsetting⟩ := terms_setting_of_mul hproduct
    refine ⟨?_, hsetting.trans hmSetting⟩
    rw [hterms, Terms.toPolynomial_mul, hmTerms, hnTerms, ← pow_add]
  · obtain ⟨⟨-, -, hlimit⟩, hcause⟩ := mul_eq_error_iff.1 hcause
    rw [degree_of_exactPow hm, degree_of_exactPow hn, ← Nat.mul_add] at hlimit
    exact ⟨hlimit, hcause⟩

/-- Exponents multiply in powers of powers. -/
theorem exactPow_of_exactPow {pm : SparsePolynomial} (hm : p.exactPow m = .ok pm) (n : Nat) :
    pm.exactPow n = p.exactPow (m * n) := by
  obtain ⟨hmTerms, hmSetting⟩ := toPolynomial_setting_of_exactPow hm
  refine eq_exactPow (fun power hpower => ?_) fun cause hcause => ?_
  · obtain ⟨hterms, hsetting⟩ := toPolynomial_setting_of_exactPow hpower
    refine ⟨?_, hsetting.trans hmSetting⟩
    rw [hterms, hmTerms, pow_mul]
  · rw [← Nat.mul_assoc, ← degree_of_exactPow hm]
    exact exactPow_eq_error_iff.1 hcause

theorem exactPow_zero (p : SparsePolynomial) :
    p.exactPow 0 = .ok (constantIn p.setting 1) := by
  rw [← exactPow_eq_powerBy, powerBy_zero]

theorem exactPow_one (p : SparsePolynomial) : p.exactPow 1 = .ok p := by
  refine (eq_exactPow (fun power hpower => ?_) fun cause hcause => ?_).symm
  · obtain rfl : p = power := Except.ok.inj hpower
    exact ⟨(pow_one _).symm, rfl⟩
  · cases hcause

/-- The power is the product of so many copies, multiplied one after the other. -/
theorem foldlM_replicate_eq_exactPow (p : SparsePolynomial) (count : Nat) :
    (List.replicate count p).foldlM mul (constantIn p.setting 1) = p.exactPow count := by
  induction count with
  | zero => exact (exactPow_zero p).symm
  | succ count ih =>
      rw [List.replicate_succ', List.foldlM_append, ih]
      cases hcount : p.exactPow count with
      | ok product =>
          change List.foldlM mul product [p] = _
          rw [List.foldlM_cons, mul_of_exactPow hcount (exactPow_one p)]
          cases p.exactPow (count + 1) <;> rfl
      | error cause =>
          obtain ⟨hlimit, hcause⟩ := exactPow_eq_error_iff.1 hcount
          have hmore : p.degree * count ≤ p.degree * (count + 1) :=
            Nat.mul_le_mul_left _ (Nat.le_succ count)
          exact (exactPow_eq_error_iff.2 ⟨hlimit.trans hmore, hcause⟩).symm

/-- What the powers of a polynomial without moduli are: which of them exist, what they stand for,
how they can be computed, and how their exponents count. The products that repeated squaring asks
for are no larger than the power, and so they all exist. -/
structure ExactPowers (p : SparsePolynomial) : Prop where
  error_iff : ∀ exponent cause, p.pow exponent = .error cause ↔
    2 ^ 32 - 1 < p.degree * exponent ∧ cause = .overflow .polynomialDegree
  value : ∀ exponent, p.degree * exponent ≤ 2 ^ 32 - 1 → ∃ power, p.pow exponent = .ok power ∧
    power.setting = p.setting ∧ power.terms.toPolynomial = p.terms.toPolynomial ^ exponent
  copies : ∀ exponent,
    p.pow exponent = (List.replicate exponent p).foldlM mul (constantIn p.setting 1)
  loop : ∀ exponent, p.pow exponent = powerBy mul (constantIn p.setting 1) p exponent
  products : ∀ exponent, p.degree * exponent ≤ 2 ^ 32 - 1 → ∀ a b,
    AsksFor mul (constantIn p.setting 1) p exponent a b →
      ∃ product, a.mul b = .ok product ∧ product.degree ≤ p.degree * exponent
  add : ∀ m n pm pn, p.pow m = .ok pm → p.pow n = .ok pn → pm.mul pn = p.pow (m + n)
  mul : ∀ m n pm, p.pow m = .ok pm → pm.pow n = p.pow (m * n)

/-- A polynomial without moduli has the powers whose degree is within the exponents, and the others
overflow. A power is the product of so many copies, which is one for the exponent zero. It is found
by repeated squaring without a product of a larger degree, and the check of the degree that comes
first refuses nothing else than the loop would. Exponents add up in products of powers and multiply
in powers of powers, down to the overflows. -/
theorem exactPowers (hfree : p.setting.isFree = true) : ExactPowers p where
  error_iff _ _ := pow_eq_error_iff hfree
  value _ hdegree := exists_pow hfree (Nat.lt_succ_of_le hdegree)
  copies exponent := by rw [pow_of_isFree hfree, foldlM_replicate_eq_exactPow]
  loop exponent := by rw [pow_of_isFree hfree, exactPow_eq_powerBy]
  products exponent hdegree a b := exists_mul_of_asksFor_power (Nat.lt_succ_of_le hdegree)
  add m n pm pn hm hn := by
    rw [pow_of_isFree hfree] at hm hn ⊢
    exact mul_of_exactPow hm hn
  mul m n pm hm := by
    rw [pow_of_isFree hfree] at hm ⊢
    have hpm : pm.setting.isFree = true := (toPolynomial_setting_of_exactPow hm).2 ▸ hfree
    rw [pow_of_isFree hpm, exactPow_of_exactPow hm]

/-- The binomial `x - 2`, whose powers reach every degree. -/
def binomial : SparsePolynomial :=
  ofTerms [(1, oneExponent), (-2, zeroExponent)]

theorem toPolynomial_binomial : binomial.terms.toPolynomial = X - C 2 := by
  have hterms : binomial.terms.ascending = [⟨-2, 0⟩, ⟨1, 1⟩] := by decide +kernel
  rw [← Terms.polynomialOf_ascending, hterms]
  simp [polynomialOf, monomial_one_one_eq_X, sub_eq_neg_add]

/-- Of the powers of a binomial, the largest exponent is the last that does not overflow. -/
theorem exactPowers_binomial :
    binomial.setting.isFree = true ∧ ExactPowers binomial ∧
    (∃ power, binomial.pow (2 ^ 32 - 1) = .ok power ∧
      power.terms.toPolynomial = (X - C 2) ^ (2 ^ 32 - 1)) ∧
    binomial.pow (2 ^ 32) = .error (.overflow .polynomialDegree) := by
  have hpowers : ExactPowers binomial := exactPowers rfl
  have hdegree : binomial.degree = 1 := by decide +kernel
  refine ⟨rfl, hpowers, ?_, ?_⟩
  · obtain ⟨power, hpower, -, hterms⟩ := hpowers.value (2 ^ 32 - 1) (by rw [hdegree, Nat.one_mul])
    exact ⟨power, hpower, by rw [hterms, toPolynomial_binomial]⟩
  · refine (hpowers.error_iff (2 ^ 32) _).2 ⟨?_, rfl⟩
    rw [hdegree]
    decide

end ExactAlgebra.SparsePolynomial
