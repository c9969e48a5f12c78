import ExactAlgebra.Power

/-!
Numbers held in words of a given number of bits. Words are natural numbers unless they are called
signed. An operation whose exact result does not fit fails, so whatever succeeds is exact.
-/

namespace ExactAlgebra.Word

/-- The number, if it fits in a word of `bits` bits. -/
def fit (bits n : Nat) : Except Error Nat :=
  if n < Nat.pow 2 bits then .ok n else .error .wordRange

/-- The integer fits in a signed word of `bits` bits besides the sign. -/
def fitsSigned (bits : Nat) (n : Int) : Bool :=
  decide (-(Nat.pow 2 bits : Int) ≤ n ∧ n < (Nat.pow 2 bits : Int))

def mul (bits a b : Nat) : Except Error Nat := fit bits (a * b)

/-- The difference of numbers of which the first is not the smaller. -/
def sub (a b : Nat) : Except Error Nat :=
  if b ≤ a then .ok (a - b) else .error .wordRange

/-- The quotient by a nonzero number. -/
def div (a b : Nat) : Except Error Nat :=
  if b = 0 then .error .wordRange else .ok (a / b)

def pow (bits base exponent : Nat) : Except Error Nat :=
  powerBy (mul bits) 1 base exponent

def product (bits : Nat) (factors : List Nat) : Except Error Nat :=
  factors.foldlM (mul bits) 1

theorem fit_of_lt {bits n : Nat} (h : n < Nat.pow 2 bits) : fit bits n = .ok n :=
  if_pos h

theorem eq_of_fit {bits n result : Nat} (h : fit bits n = .ok result) : result = n := by
  unfold fit at h
  split at h
  · cases h
    rfl
  · cases h

end ExactAlgebra.Word
