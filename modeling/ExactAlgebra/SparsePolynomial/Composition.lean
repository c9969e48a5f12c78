import ExactAlgebra.SparsePolynomial.Power

/-!
Substitution of one polynomial for the variable of another, by Horner's rule over the terms that are
present. The result lives in the setting of the polynomial that is substituted.
-/

namespace ExactAlgebra.SparsePolynomial

/-- Horner's rule with a polynomial for the variable, from the value so far and the exponent that it
stands at. -/
def hornerCompose (q : SparsePolynomial) :
    SparsePolynomial → Nat → List Term → Except Error SparsePolynomial
  | value, exponent, [] => do
      let power ← q.exactPow exponent
      value.mul power
  | value, exponent, t :: rest => do
      let power ← q.exactPow (exponent - t.exponent)
      let product ← value.mul power
      hornerCompose q (product.addConstant t.coefficient) t.exponent rest

/-- The polynomial `p` with `q` for its variable. -/
def compose (p q : SparsePolynomial) : Except Error SparsePolynomial :=
  hornerCompose q (constantIn q.setting p.terms.leading.coefficient) p.degree p.terms.tail.list

end ExactAlgebra.SparsePolynomial
