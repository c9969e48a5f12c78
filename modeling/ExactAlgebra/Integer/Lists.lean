import ExactAlgebra.Word

/-!
Greatest common divisors and least common multiples of lists of 64-bit numbers.
-/

namespace ExactAlgebra.Integer

/-- The greatest common divisor of a list that is not empty. -/
def gcdList : List Nat → Except Error Nat
  | [] => .error .emptyInput
  | first :: rest => .ok (rest.foldl Nat.gcd first)

/-- The least common multiple of two numbers, if it fits in 64 bits. -/
def lcmPair (a b : Nat) : Except Error Nat :=
  if a = 0 ∨ b = 0 then .ok 0
  else
    match Word.mul 64 (a / Nat.gcd a b) b with
    | .ok multiple => .ok multiple
    | .error _ => .error (.overflow .leastCommonMultiple)

/-- The least common multiple of a list that is not empty, built up from the front. -/
def lcmList : List Nat → Except Error Nat
  | [] => .error .emptyInput
  | first :: rest => rest.foldlM lcmPair first

end ExactAlgebra.Integer
