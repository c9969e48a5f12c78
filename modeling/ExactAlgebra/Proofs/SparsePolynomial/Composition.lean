import ExactAlgebra.Proofs.SparsePolynomial.Moduli
import ExactAlgebra.Proofs.SparsePolynomial.Power
import ExactAlgebra.Proofs.Terms.Evaluation

/-!
Composition is substitution. Horner's rule multiplies the value of the terms so far by powers of the
polynomial that is substituted, one for each gap between exponents. The degree of the value and that
of the powers still to come add up to the same number throughout, the product of the two degrees, so
nothing on the way overflows unless the composition itself does. As it is the composition of the
polynomial ring, composition commutes with evaluation and is associative.
-/

namespace ExactAlgebra.SparsePolynomial

open Polynomial

variable {p q value : SparsePolynomial}

/-- What Horner's rule computes: the terms so far are moved up by the exponent they stand at, and
the terms to come are added. -/
theorem toPolynomial_of_hornerCompose {result : SparsePolynomial} {exponent : Nat}
    {terms : List Term} (hdescending : terms.Pairwise (fun a b => b.exponent < a.exponent))
    (hbelow : ExponentsBelow exponent terms)
    (h : hornerCompose q value exponent terms = .ok result) :
    result.terms.toPolynomial = value.terms.toPolynomial * q.terms.toPolynomial ^ exponent +
      (polynomialOf terms).comp q.terms.toPolynomial := by
  induction terms generalizing value exponent with
  | nil =>
      rw [hornerCompose] at h
      obtain ⟨power, hpower, hproduct⟩ := eq_ok_of_bind h
      rw [(terms_setting_of_mul hproduct).1, Terms.toPolynomial_mul,
        (toPolynomial_setting_of_exactPow hpower).1, polynomialOf, zero_comp, add_zero]
  | cons t rest ih =>
      rw [hornerCompose] at h
      obtain ⟨power, hpower, hnext⟩ := eq_ok_of_bind h
      obtain ⟨product, hproduct, hrest⟩ := eq_ok_of_bind hnext
      obtain ⟨hlower, hdescending⟩ := List.pairwise_cons.1 hdescending
      have hexponent : exponent - t.exponent + t.exponent = exponent :=
        Nat.sub_add_cancel (Nat.le_of_lt (exponentsBelow_cons.1 hbelow).1)
      rw [ih hdescending hlower hrest, toPolynomial_addConstant, (terms_setting_of_mul hproduct).1,
        Terms.toPolynomial_mul, (toPolynomial_setting_of_exactPow hpower).1, polynomialOf, add_comp,
        monomial_comp, add_mul, mul_assoc, ← pow_add, hexponent, add_assoc]

/-- One round of Horner's rule: the power for a gap between exponents and the product with it. -/
theorem exists_mul_exactPow {gap : Nat} (h : value.degree + q.degree * gap < exponentLimit) :
    ∃ power product, q.exactPow gap = .ok power ∧ value.mul power = .ok product ∧
      product.degree ≤ value.degree + q.degree * gap := by
  have hgap : q.degree * gap < exponentLimit := by omega
  obtain ⟨power, hpower, -⟩ := exists_exactPow hgap
  have hsize : power.degree = q.degree * gap := degree_of_exactPow hpower
  obtain ⟨product, hproduct, -, -, hdegree⟩ := exists_mul_toPolynomial (hsize ▸ h)
  exact ⟨power, product, hpower, hproduct, hsize ▸ hdegree⟩

/-- Horner's rule comes through when the degree of the value so far and that of the power still to
come stay below the limit together. -/
theorem exists_hornerCompose {exponent : Nat} {terms : List Term}
    (hdescending : terms.Pairwise (fun a b => b.exponent < a.exponent))
    (hbelow : ExponentsBelow exponent terms)
    (hdegree : value.degree + q.degree * exponent < exponentLimit) :
    ∃ result, hornerCompose q value exponent terms = .ok result := by
  induction terms generalizing value exponent with
  | nil =>
      obtain ⟨power, product, hpower, hproduct, -⟩ := exists_mul_exactPow hdegree
      refine ⟨product, ?_⟩
      rw [hornerCompose, hpower]
      exact hproduct
  | cons t rest ih =>
      obtain ⟨hlower, hdescending⟩ := List.pairwise_cons.1 hdescending
      have hle : t.exponent ≤ exponent := Nat.le_of_lt (exponentsBelow_cons.1 hbelow).1
      have hsplit : q.degree * (exponent - t.exponent) + q.degree * t.exponent =
          q.degree * exponent := by
        rw [← Nat.mul_add, Nat.sub_add_cancel hle]
      have hround : value.degree + q.degree * (exponent - t.exponent) < exponentLimit := by omega
      obtain ⟨power, product, hpower, hproduct, hsize⟩ := exists_mul_exactPow hround
      have hrest : (product.addConstant t.coefficient).degree + q.degree * t.exponent <
          exponentLimit := by
        rw [degree_addConstant]
        omega
      obtain ⟨result, hresult⟩ := ih hdescending hlower hrest
      refine ⟨result, ?_⟩
      rw [hornerCompose, hpower]
      change value.mul power >>= _ = _
      rw [hproduct]
      exact hresult

/-- Whatever fails in Horner's rule is a degree that overflows. -/
theorem eq_overflow_of_hornerCompose {exponent : Nat} {terms : List Term} {cause : Error}
    (h : hornerCompose q value exponent terms = .error cause) :
    cause = .overflow .polynomialDegree := by
  induction terms generalizing value exponent with
  | nil =>
      rw [hornerCompose] at h
      rcases eq_error_of_bind h with hpower | ⟨power, -, hproduct⟩
      · exact (exactPow_eq_error_iff.1 hpower).2
      · exact (mul_eq_error_iff.1 hproduct).2
  | cons t rest ih =>
      rw [hornerCompose] at h
      rcases eq_error_of_bind h with hpower | ⟨power, -, hnext⟩
      · exact (exactPow_eq_error_iff.1 hpower).2
      · rcases eq_error_of_bind hnext with hproduct | ⟨product, -, hrest⟩
        · exact (mul_eq_error_iff.1 hproduct).2
        · exact ih hrest

/-- A composition that exists is the composition in the polynomial ring, in the setting of the
polynomial that is substituted. -/
theorem toPolynomial_of_compose {result : SparsePolynomial} (h : p.compose q = .ok result) :
    result.terms.toPolynomial = p.terms.toPolynomial.comp q.terms.toPolynomial := by
  rw [compose] at h
  rw [toPolynomial_of_hornerCompose p.terms.tail.normal.descending p.terms.below_tail h,
    toPolynomial_constantIn, ← Terms.leading_add_tail_eq_toPolynomial p.terms,
    add_comp, monomial_comp]
  rfl

/-- The degrees of the two polynomials multiply. -/
theorem degree_of_compose {result : SparsePolynomial} (h : p.compose q = .ok result) :
    result.degree = p.degree * q.degree := by
  rw [degree, ← Terms.natDegree_toPolynomial, toPolynomial_of_compose h, natDegree_comp,
    Terms.natDegree_toPolynomial, Terms.natDegree_toPolynomial, degree, degree]

theorem setting_of_compose {result : SparsePolynomial} (h : p.compose q = .ok result) :
    result.setting = q.setting :=
  (lendsSetting p q).compose result h

theorem exists_compose (h : p.degree * q.degree < exponentLimit) :
    ∃ result, p.compose q = .ok result := by
  refine exists_hornerCompose p.terms.tail.normal.descending p.terms.below_tail ?_
  rwa [degree_constantIn, Nat.zero_add, Nat.mul_comm]

/-- The only failure of a composition is an overflow of its degree. -/
theorem compose_eq_error_iff {cause : Error} :
    p.compose q = .error cause ↔
      exponentLimit ≤ p.degree * q.degree ∧ cause = .overflow .polynomialDegree := by
  constructor
  · intro h
    refine ⟨?_, eq_overflow_of_hornerCompose h⟩
    by_contra hdegree
    obtain ⟨result, hresult⟩ := exists_compose (Nat.lt_of_not_le hdegree)
    rw [hresult] at h
    cases h
  · rintro ⟨hdegree, rfl⟩
    cases h : p.compose q with
    | ok result =>
        have hlt := result.degree_lt
        rw [degree_of_compose h] at hlt
        omega
    | error cause => rw [eq_overflow_of_hornerCompose h]

/-- Of three polynomials that are composed, either two can be composed first. -/
theorem compose_assoc {s pq qs : SparsePolynomial} (hpq : p.compose q = .ok pq)
    (hqs : q.compose s = .ok qs) : pq.compose s = p.compose qs := by
  have hdegree : pq.degree * s.degree = p.degree * qs.degree := by
    rw [degree_of_compose hpq, degree_of_compose hqs, Nat.mul_assoc]
  -- Both sides have the same degree, so they overflow together.
  by_cases hoverflow : exponentLimit ≤ p.degree * qs.degree
  · rw [compose_eq_error_iff.2 ⟨hoverflow, rfl⟩, compose_eq_error_iff.2 ⟨hdegree ▸ hoverflow, rfl⟩]
  · obtain ⟨right, hright⟩ := exists_compose (Nat.lt_of_not_le hoverflow)
    obtain ⟨left, hleft⟩ := exists_compose (hdegree ▸ Nat.lt_of_not_le hoverflow)
    rw [hleft, hright]
    refine congrArg Except.ok (eq_of_toPolynomial_eq ?_ ?_)
    · rw [toPolynomial_of_compose hleft, toPolynomial_of_compose hright,
        toPolynomial_of_compose hpq, toPolynomial_of_compose hqs, comp_assoc]
    · rw [setting_of_compose hleft, setting_of_compose hright, setting_of_compose hqs]

theorem evaluate_eq_eval (p : SparsePolynomial) (x : Rat) :
    p.evaluate x = p.terms.toPolynomial.eval x :=
  Terms.evaluate_eq_eval p.terms x

/-- Composition is substitution. It fails exactly when the product of the degrees is beyond the
largest exponent, with that overflow. Otherwise the result is the sum of the coefficients of the
first polynomial times powers of the second, in the setting of the second, and its values are those
of the first polynomial at the values of the second. Moduli play no role, and composing is
associative as soon as the inner compositions exist, in its failures as well. -/
theorem compose_isSubstitution (p q : SparsePolynomial) :
    (∀ cause, p.compose q = .error cause ↔
      2 ^ 32 - 1 < p.degree * q.degree ∧ cause = .overflow .polynomialDegree) ∧
    (p.degree * q.degree ≤ 2 ^ 32 - 1 → ∃ result, p.compose q = .ok result ∧
      result.setting = q.setting ∧
      result.terms.toPolynomial =
        ∑ i ∈ Finset.range (p.degree + 1), C (p.terms.coeff i) * q.terms.toPolynomial ^ i ∧
      ∀ x, result.evaluate x = p.evaluate (q.evaluate x)) ∧
    (∀ m n, (p.withModuli m).compose (q.withModuli n) = (p.compose q).map (withModuli n)) ∧
    ∀ s pq qs, p.compose q = .ok pq → q.compose s = .ok qs → pq.compose s = p.compose qs := by
  refine ⟨fun cause => compose_eq_error_iff, fun hdegree => ?_,
    fun m n => (ignoresModuli m n p q).compose, fun s pq qs => compose_assoc⟩
  obtain ⟨result, hresult⟩ := exists_compose (Nat.lt_succ_of_le hdegree)
  have hcomp := toPolynomial_of_compose hresult
  refine ⟨result, hresult, setting_of_compose hresult, ?_, fun x => ?_⟩
  · rw [hcomp, comp, eval₂_eq_sum_range, Terms.natDegree_toPolynomial]
    simp only [Terms.coeff_toPolynomial]
    rfl
  · rw [evaluate_eq_eval, evaluate_eq_eval, evaluate_eq_eval, hcomp, eval_comp]

end ExactAlgebra.SparsePolynomial
