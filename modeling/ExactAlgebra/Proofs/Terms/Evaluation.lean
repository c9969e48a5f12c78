import ExactAlgebra.Proofs.Terms.Polynomial
import Mathlib.Algebra.Polynomial.Eval.Defs

/-!
The value of a sum of terms by Horner's rule is that of the polynomial. The loop carries the value
of the terms above the exponent that it stands at, divided by the power of that exponent.
-/

namespace ExactAlgebra

open Polynomial

/-- The value of what a list of terms adds up to is the sum of the values of its terms. -/
theorem eval_polynomialOf (x : ℚ) (list : List Term) :
    (polynomialOf list).eval x = (list.map fun t => t.coefficient * x ^ t.exponent).sum := by
  induction list with
  | nil => exact eval_zero
  | cons t rest ih =>
      rw [polynomialOf, eval_add, eval_monomial, ih, List.map_cons, List.sum_cons]

namespace Terms

theorem horner_eq_eval (x : ℚ) {list : List Term}
    (hdescending : list.Pairwise (fun a b => b.exponent < a.exponent)) (value : ℚ) {exponent : Nat}
    (hbelow : ExponentsBelow exponent list) :
    horner x value exponent list = value * x ^ exponent + (polynomialOf list).eval x := by
  induction list generalizing value exponent with
  | nil => rw [horner, polynomialOf, eval_zero, add_zero]
  | cons t rest ih =>
      obtain ⟨hlower, hrest⟩ := List.pairwise_cons.1 hdescending
      have hexponent : exponent - t.exponent + t.exponent = exponent :=
        Nat.sub_add_cancel (Nat.le_of_lt (exponentsBelow_cons.1 hbelow).1)
      rw [horner, ih hrest _ hlower, polynomialOf, eval_add, eval_monomial, add_mul, mul_assoc,
        ← pow_add, hexponent, add_assoc]

theorem evaluate_eq_eval (p : Terms) (x : ℚ) : p.evaluate x = p.toPolynomial.eval x := by
  rw [evaluate, horner_eq_eval x p.tail.normal.descending _ p.below_tail,
    ← leading_add_tail_eq_toPolynomial, eval_add, eval_monomial]
  rfl

/-- The value is the sum of the values of the stored terms. -/
theorem evaluate_eq_sum (p : Terms) (x : ℚ) :
    p.evaluate x = (p.ascending.map fun t => t.coefficient * x ^ t.exponent).sum := by
  rw [evaluate_eq_eval, ← polynomialOf_ascending, eval_polynomialOf]

end Terms

end ExactAlgebra
