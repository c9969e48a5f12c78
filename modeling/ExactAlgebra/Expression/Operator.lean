import ExactAlgebra.Expression.Operand

/-!
The operators of expressions: how tightly they bind, and what they do to the operands on top of a
stack.
-/

namespace ExactAlgebra

/-- Operators with two operands, and the sign of a negation. -/
inductive Operator where
  | add
  | subtract
  | multiply
  | remainder
  | power
  | negate
  deriving DecidableEq

/-- How tightly operators bind, from sums to powers. -/
inductive Precedence where
  | sum
  | product
  | sign
  | power
  deriving DecidableEq

/-- Looser levels come first. -/
def Precedence.rank : Precedence → Nat
  | .sum => 0
  | .product => 1
  | .sign => 2
  | .power => 3

namespace Operator

def precedence : Operator → Precedence
  | .add | .subtract => .sum
  | .multiply | .remainder => .product
  | .negate => .sign
  | .power => .power

/-- The value of an operator with two operands; a negation looks at the right one only. -/
def value (left right : Operand) : Operator → Except Error Operand
  | .add => .ok (left.add right)
  | .subtract => .ok (left.sub right)
  | .multiply => left.mul right
  | .remainder => left.mod right
  | .power => left.pow right
  | .negate => .ok right.neg

/-- The stack after an operator took its operands from the top, the right one first, and put its
value there. The position is that of the operator. -/
def apply (operator : Operator) (position : Nat) (values : List Operand) :
    Except Error (List Operand) :=
  match operator, values with
  | .negate, right :: rest => .ok (right.neg :: rest)
  | .negate, [] => .error (.missingOperand position)
  | operator, right :: left :: rest => (operator.value left right).map (· :: rest)
  | _, _ => .error (.missingOperand position)

end Operator

end ExactAlgebra
