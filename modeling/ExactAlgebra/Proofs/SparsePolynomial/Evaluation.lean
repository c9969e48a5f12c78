import ExactAlgebra.Proofs.SparsePolynomial.Composition
import ExactAlgebra.Proofs.SparsePolynomial.Division
import ExactAlgebra.Proofs.SparsePolynomial.ExactPower

/-!
The values of polynomials. Horner's rule over the terms that are present adds up the values of these
terms, with the zeroth power of zero as one. Taking the value at a number goes with the arithmetic:
sums, products, powers and divisions of polynomials have the values that are computed from the
values of their operands.
-/

namespace ExactAlgebra.SparsePolynomial

open Polynomial

/-- How the value of a polynomial at a number is made up, and what the results of arithmetic with
the polynomial have there. Products and powers are those that exist. -/
structure EvaluationLaws (p : SparsePolynomial) (x : Rat) : Prop where
  sum : p.evaluate x = (p.terms.ascending.map fun t => t.coefficient * x ^ t.exponent).sum
  neg : (-p).evaluate x = -p.evaluate x
  add : ∀ q : SparsePolynomial, (p + q).evaluate x = p.evaluate x + q.evaluate x
  sub : ∀ q : SparsePolynomial, (p - q).evaluate x = p.evaluate x - q.evaluate x
  mul : ∀ q product, p.mul q = .ok product →
    product.evaluate x = p.evaluate x * q.evaluate x
  pow : p.setting.isFree = true → ∀ exponent power, p.pow exponent = .ok power →
    power.evaluate x = p.evaluate x ^ exponent
  division : ∀ d : SparsePolynomial, d.terms ≠ 0 → ∃ q r, p.divMod d = .ok (q, r) ∧
    p.evaluate x = q.evaluate x * d.evaluate x + r.evaluate x

theorem evaluate_of_mul {p q product : SparsePolynomial} (h : p.mul q = .ok product) (x : Rat) :
    product.evaluate x = p.evaluate x * q.evaluate x := by
  simp only [evaluate_eq_eval]
  rw [(terms_setting_of_mul h).1, Terms.toPolynomial_mul, eval_mul]

theorem evaluate_of_exactPow {p power : SparsePolynomial} {exponent : Nat}
    (h : p.exactPow exponent = .ok power) (x : Rat) :
    power.evaluate x = p.evaluate x ^ exponent := by
  simp only [evaluate_eq_eval]
  rw [(toPolynomial_setting_of_exactPow h).1, eval_pow]

/-- The values of quotient and remainder give the value of the dividend back. -/
theorem evaluate_quotient_remainder (p d : SparsePolynomial) (x : Rat) :
    p.evaluate x = (p.quotient d).evaluate x * d.evaluate x + (p.remainder d).evaluate x := by
  have hdivision : p.terms.toPolynomial =
      (p.quotient d).terms.toPolynomial * d.terms.toPolynomial +
        (p.remainder d).terms.toPolynomial :=
    Terms.toPolynomial_divMod p.terms d.terms
  simp only [evaluate_eq_eval]
  rw [hdivision, eval_add, eval_mul]

/-- The value at a number is the sum of the stored coefficients times powers of the number, and it
is a homomorphism of rings as far as the results exist: negations, sums, differences, products,
powers without moduli, and division with a remainder by anything but zero. -/
theorem evaluationLaws (p : SparsePolynomial) (x : Rat) : EvaluationLaws p x where
  sum := Terms.evaluate_eq_sum p.terms x
  neg := by
    simp only [evaluate_eq_eval]
    rw [terms_neg, Terms.toPolynomial_neg, eval_neg]
  add q := by
    simp only [evaluate_eq_eval]
    rw [terms_add, Terms.toPolynomial_add, eval_add]
  sub q := by
    simp only [evaluate_eq_eval]
    rw [terms_sub, Terms.toPolynomial_sub, eval_sub]
  mul _ _ hproduct := evaluate_of_mul hproduct x
  pow hfree exponent _ hpower :=
    evaluate_of_exactPow ((pow_of_isFree hfree exponent).symm.trans hpower) x
  division d hd := ⟨_, _, divMod_eq_ok hd, evaluate_quotient_remainder p d x⟩

end ExactAlgebra.SparsePolynomial
