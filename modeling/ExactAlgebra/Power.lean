import ExactAlgebra.Error

/-!
Powers by repeated squaring, for multiplications that can fail. The base is squared only while more
of the exponent is left, so no square is computed that the result does not need.
-/

namespace ExactAlgebra

/-- What the lowest binary digit of an exponent asks for: a factor `base` when it is one. -/
def mulIfOdd {ε α : Type} (mul : α → α → Except ε α) (result base : α) (exponent : Nat) :
    Except ε α :=
  if exponent % 2 = 1 then mul result base else .ok result

/-- `result` times `base` to the power of `exponent`, with the binary digits of the exponent taken
from the lowest up. -/
def powerBy {ε α : Type} (mul : α → α → Except ε α) (result base : α) (exponent : Nat) :
    Except ε α :=
  if _h : exponent = 0 then .ok result
  else do
    let result ← mulIfOdd mul result base exponent
    if exponent / 2 = 0 then .ok result
    else do
      let base ← mul base base
      powerBy mul result base (exponent / 2)
termination_by exponent

@[simp] theorem powerBy_zero {ε α : Type} (mul : α → α → Except ε α) (result base : α) :
    powerBy mul result base 0 = .ok result := by
  rw [powerBy, dif_pos rfl]

end ExactAlgebra
