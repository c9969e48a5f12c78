import ExactAlgebra.Factorization.Basic
import ExactAlgebra.Integer.Lists

/-!
Arithmetic functions, read off a factorization. Values and everything on the way to them are held
in 64 bits, in 128 bits for sums of divisors; a list of prime powers that stands for no number may
make them fail.
-/

namespace ExactAlgebra.Factorization

/-- What a prime power contributes to the number of units. -/
def unitCount (p : PrimePower) : Except Error Nat := do
  let exponent ← Word.sub p.exponent 1
  let power ← Word.pow 64 p.prime exponent
  let units ← Word.sub p.prime 1
  Word.mul 64 power units

/-- The number of units modulo the number. -/
def totient (factors : Factorization) : Except Error Nat := do
  let counts ← factors.mapM unitCount
  Word.product 64 counts

/-- The product of the primes. -/
def radical (factors : Factorization) : Except Error Nat :=
  Word.product 64 (factors.map PrimePower.prime)

/-- The number of divisors. -/
def divisorCount (factors : Factorization) : Except Error Nat :=
  Word.product 64 (factors.map fun p => p.exponent + 1)

/-- The sum of the divisors of a prime power. -/
def divisorSumOf (p : PrimePower) : Except Error Nat := do
  let power ← Word.pow 128 p.prime (p.exponent + 1)
  let above ← Word.sub power 1
  let units ← Word.sub p.prime 1
  Word.div above units

def divisorSum (factors : Factorization) : Except Error Nat := do
  let sums ← factors.mapM divisorSumOf
  Word.product 128 sums

/-- Every prime occurs once. -/
def isSquareFree (factors : Factorization) : Bool :=
  factors.all fun p => p.exponent == 1

/-- Zero when a prime occurs twice, and otherwise the parity of the number of primes as a sign. -/
def moebius (factors : Factorization) : Int :=
  if factors.any (fun p => decide (1 < p.exponent)) then 0
  else if factors.length % 2 = 0 then 1
  else -1

/-- The exponent of the group of units modulo a prime power. From eight on the units modulo a power
of two are no cyclic group, and the exponent is half of what it is for other primes. -/
def unitExponent (p : PrimePower) : Except Error Nat :=
  if p.prime = 2 ∧ p.exponent = 1 then .ok 1
  else if p.prime = 2 ∧ p.exponent = 2 then .ok 2
  else if p.prime = 2 then do
    let exponent ← Word.sub p.exponent 2
    Word.pow 64 2 exponent
  else unitCount p

/-- The exponent of the group of units modulo the number. -/
def groupExponent (factors : Factorization) : Except Error Nat := do
  let exponents ← factors.mapM unitExponent
  match exponents with
  | [] => return 1
  | first :: rest => Integer.lcmList (first :: rest)

end ExactAlgebra.Factorization
