import ExactAlgebra.Integer.Multiplicity

/-!
Factorizations by trial division. A factorization lists prime powers by ascending prime. Divisors
are tried from two up, over the odd numbers after that, until the divisor exceeds the quotient;
what is left then has no smaller divisor, so it is one or a prime.
-/

namespace ExactAlgebra

/-- A prime and its exponent in a factorization. -/
structure PrimePower where
  prime : Nat
  exponent : Nat
  deriving DecidableEq

/-- Prime powers, by ascending prime. -/
abbrev Factorization := List PrimePower

/-- The divisor to try after `d`: three after two, and odd numbers from there on. -/
def nextDivisor (d : Nat) : Nat :=
  if d = 2 then 3 else d + 2

theorem lt_nextDivisor (d : Nat) : d < nextDivisor d := by
  unfold nextDivisor
  split <;> omega

theorem lt_of_le_div {d n : Nat} (hd : 1 < d) (h : d ≤ n / d) : d < n := by
  have hmul : d * d ≤ n := (Nat.le_div_iff_mul_le (by omega)).1 h
  have hlt : d * 1 < d * d := (Nat.mul_lt_mul_left (by omega)).2 hd
  omega

/-- The factorization of a number that has no divisors below `d` but one. -/
def factorsFrom (d n : Nat) : Factorization :=
  if _h : 1 < d ∧ d ≤ n / d then
    if n % d = 0 then
      ⟨d, (Integer.divideOut d n).1⟩ :: factorsFrom (nextDivisor d) (Integer.divideOut d n).2
    else factorsFrom (nextDivisor d) n
  else if 1 < n then [⟨n, 1⟩]
  else []
termination_by n - d
decreasing_by
  · have hlt := lt_of_le_div _h.1 _h.2
    have hle := Integer.divideOut_snd_le (d := d) (n := n) (by omega)
    have hnext := lt_nextDivisor d
    omega
  · have hlt := lt_of_le_div _h.1 _h.2
    have hnext := lt_nextDivisor d
    omega

/-- The factorization of a positive number. -/
def trialDivision (n : Nat) : Factorization := factorsFrom 2 n

end ExactAlgebra
