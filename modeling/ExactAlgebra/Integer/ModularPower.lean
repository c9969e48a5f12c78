import ExactAlgebra.Word

/-!
Powers modulo a 64-bit number. Each product of two remainders is taken in 128 bits before it is
reduced.
-/

namespace ExactAlgebra.Integer

/-- The remainder of a product that fits in 128 bits. -/
def mulMod (modulus a b : Nat) : Except Error Nat :=
  (Word.mul 128 a b).map (· % modulus)

/-- `result` times `base` to the power of `exponent`, modulo `modulus`. The base is squared for
every binary digit of the exponent, the last one included. -/
def powModFrom (modulus result base exponent : Nat) : Except Error Nat :=
  if _h : exponent = 0 then .ok result
  else do
    let result ← mulIfOdd (mulMod modulus) result base exponent
    let base ← mulMod modulus base base
    powModFrom modulus result base (exponent / 2)
termination_by exponent

def powMod (base exponent modulus : Nat) : Except Error Nat :=
  if modulus = 0 then .error .wordRange
  else powModFrom modulus (1 % modulus) (base % modulus) exponent

end ExactAlgebra.Integer
