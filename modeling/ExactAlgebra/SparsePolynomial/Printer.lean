import ExactAlgebra.Rational.Numeral
import ExactAlgebra.SparsePolynomial.Basic

/-!
The written form of a polynomial: terms from the leading one down, joined by signed operators. The
coefficient is always written, the exponents zero and one are not, and the zero polynomial is `0`.
-/

namespace ExactAlgebra.SparsePolynomial

def powerText (symbol : Char) (exponent : Nat) : List Char :=
  match exponent with
  | 0 => []
  | 1 => [symbol]
  | _ => symbol :: '^' :: Rational.natText exponent

/-- The leading term with the sign of its coefficient. -/
def leadingText (symbol : Char) (t : Term) : List Char :=
  Rational.coefficientText t.coefficient ++ powerText symbol t.exponent

/-- A further term behind the operator that its sign calls for. -/
def followingText (symbol : Char) (t : Term) : List Char :=
  if t.coefficient < 0 then
    [' ', '-', ' '] ++ leadingText symbol ⟨-t.coefficient, t.exponent⟩
  else [' ', '+', ' '] ++ leadingText symbol t

def text (p : SparsePolynomial) : List Char :=
  leadingText p.symbol p.terms.leading ++ p.terms.tail.list.flatMap (followingText p.symbol)

instance : ToString SparsePolynomial := ⟨fun p => String.ofList p.text⟩

end ExactAlgebra.SparsePolynomial
