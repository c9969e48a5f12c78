import ExactAlgebra.Error

/-!
Sums of digits in a base of at least two.
-/

namespace ExactAlgebra.Integer

/-- The sum of the digits of a number in a base. -/
def digitTotal (base n : Nat) : Nat :=
  if _h : n = 0 ∨ base < 2 then 0
  else n % base + digitTotal base (n / base)
termination_by n
decreasing_by exact Nat.div_lt_self (by omega) (by omega)

/-- The sum of the digits, for a base that has digits. -/
def digitSum (n base : Nat) : Except Error Nat :=
  if base < 2 then .error (.invalidBase base) else .ok (digitTotal base n)

end ExactAlgebra.Integer
