import ExactAlgebra.Error

/-!
Exact rational numbers as the library uses them: fractions read from two integers, the sign of a
number, and the remainder that takes the sign of its modulus.
-/

namespace ExactAlgebra

/-- The fraction of two integers, which a zero denominator does not have. -/
def fraction (numerator denominator : Int) : Except Error Rat :=
  if denominator = 0 then .error .divisionByZero else .ok (Rat.divInt numerator denominator)

/-- The remainder of `value` after taking out whole multiples of `modulus`, with the multiple chosen
by rounding down, so that the remainder lies between zero and the modulus. -/
def floorMod (value modulus : Rat) : Rat :=
  value - modulus * (value / modulus).floor

/-- The sign of a nonzero number. -/
inductive Sign where
  | negative
  | positive
  deriving DecidableEq

/-- Zero has no sign. -/
def Sign.ofRat? (value : Rat) : Option Sign :=
  if value < 0 then some .negative else if 0 < value then some .positive else none

@[simp] theorem zero_floorMod (modulus : Rat) : floorMod 0 modulus = 0 := by
  have hfloor : (0 / modulus).floor = 0 := by
    rw [Rat.div_def, Rat.zero_mul]
    rfl
  rw [floorMod, hfloor]
  grind

end ExactAlgebra
