import ExactAlgebra.Factorization.Functions
import ExactAlgebra.Integer.ModularPower
import ExactAlgebra.RecentMap

/-!
Factoring with a memory. Factorizations are looked up in the memory first and inserted when they
had to be computed; what is found there is used as it is. What was inserted stays in the memory,
also when the computation that asked for it fails later on.
-/

namespace ExactAlgebra

/-- Factorizations that were computed last. -/
abbrev FactorMemory := RecentMap Nat Factorization

/-- Computations that may consult and extend the memory, and may fail. Failing does not undo what
happened to the memory before. -/
abbrev Factoring (α : Type) := ExceptT Error (StateM FactorMemory) α

namespace Factoring

/-- The outcome of a computation that starts with a given memory, and the memory after it. -/
def outcome {α : Type} (computation : Factoring α) (memory : FactorMemory) :
    Except Error α × FactorMemory :=
  StateT.run (ExceptT.run computation) memory

def factor (n : Nat) : Factoring Factorization := fun memory =>
  if n = 0 then (.error .notPositive, memory)
  else
    match memory.get? n with
    | some factors => (.ok factors, memory)
    | none =>
        let factors := trialDivision n
        (.ok factors, memory.insert n factors)

/-- A function of the factorization of a number. -/
def ofFactors {α : Type} (f : Factorization → Except Error α) (n : Nat) : Factoring α := do
  let factors ← factor n
  liftM (f factors)

/-- Euler's function: how many numbers up to `n` are coprime to it. -/
def eulerPhi (n : Nat) : Factoring Nat := ofFactors Factorization.totient n

/-- The product of the primes that divide the number. -/
def radical (n : Nat) : Factoring Nat := ofFactors Factorization.radical n

/-- The number of divisors. -/
def divisorCount (n : Nat) : Factoring Nat := ofFactors Factorization.divisorCount n

def divisorSum (n : Nat) : Factoring Nat := ofFactors Factorization.divisorSum n

/-- No square but one divides the number. -/
def isSquareFree (n : Nat) : Factoring Bool :=
  ofFactors (fun factors => .ok (Factorization.isSquareFree factors)) n

/-- The Moebius function. -/
def moebius (n : Nat) : Factoring Int :=
  ofFactors (fun factors => .ok (Factorization.moebius factors)) n

/-- The exponent of the group of units modulo the number. -/
def carmichael (n : Nat) : Factoring Nat := ofFactors Factorization.groupExponent n

/-- An exponent that `a` has modulo `m`, with the factor `prime` taken out as often as it stays
one. -/
def stripPrime (a m prime exponent : Nat) : Except Error Nat :=
  if prime = 0 then .error .wordRange
  else if _h : exponent % prime = 0 ∧ exponent / prime < exponent then do
    let power ← Integer.powMod a (exponent / prime) m
    if power = 1 then stripPrime a m prime (exponent / prime) else .ok exponent
  else .ok exponent
termination_by exponent
decreasing_by exact _h.2

/-- An exponent that `a` has modulo `m`, with as many of some prime factors taken out as possible.
-/
def stripPrimes (a m : Nat) (factors : Factorization) (exponent : Nat) : Except Error Nat :=
  factors.foldlM (fun exponent p => stripPrime a m p.prime exponent) exponent

/-- The least positive exponent with which the power of `a` is one modulo `m`, for `a` coprime to
`m`. It divides the exponent of the group of units, and is found by taking prime factors out of
that. -/
def multiplicativeOrder (a m : Nat) : Factoring (Option Nat) :=
  if m = 0 then throw .notPositive
  else if Nat.gcd a m ≠ 1 then pure none
  else if m = 1 then pure (some 1)
  else do
    let exponent ← carmichael m
    let factors ← factor exponent
    let order ← liftM (stripPrimes a m factors exponent)
    return some order

/-- Forgets all factorizations. -/
def clearMemory : Factoring Unit := fun memory => (.ok (), memory.clear)

end Factoring

end ExactAlgebra
