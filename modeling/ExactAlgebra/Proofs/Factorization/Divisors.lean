import ExactAlgebra.Proofs.Factorization.UnitGroup
import Mathlib.Algebra.Ring.GeomSum
import Mathlib.NumberTheory.ArithmeticFunction.Misc

/-!
The divisors of a number. A divisor of a product of coprime numbers is a product of divisors of
theirs, so the number of divisors and their sum are found from the prime powers, for which they are
the exponent plus one and a geometric sum. A prime is at most the prime power that it belongs to, so
nothing that is computed on the way is larger than the square of the number.
-/

namespace ExactAlgebra

open Finset

namespace PrimePower

variable {p : PrimePower}

/-- The divisors of a prime power are the powers of the prime up to it. -/
theorem exponent_succ_eq_card_divisors (hprime : p.prime.Prime) :
    p.exponent + 1 = p.value.divisors.card := by
  rw [value, Nat.divisors_prime_pow hprime, card_map, card_range]

theorem divisorSum_eq_sum_divisors (hprime : p.prime.Prime) :
    p.divisorSum = ∑ d ∈ p.value.divisors, d := by
  rw [value, Nat.sum_divisors_prime_pow hprime, divisorSum, Nat.geomSum_eq hprime.two_le]

/-- The exponent of a prime power in 64 bits is below 64. -/
theorem exponent_lt (hprime : p.prime.Prime) (hvalue : p.value < Nat.pow 2 64) :
    p.exponent < 64 := by
  have hpow : 2 ^ p.exponent ≤ p.value := Nat.pow_le_pow_left hprime.two_le _
  exact (Nat.pow_lt_pow_iff_right Nat.one_lt_two).1 (hpow.trans_lt hvalue)

end PrimePower

namespace IsPrimeFactorization

variable {n : ℕ} {p : PrimePower} {factors : Factorization}

theorem prod_exponent_succ (h : IsPrimeFactorization n factors) :
    (factors.map fun p => p.exponent + 1).prod = n.divisors.card :=
  prod_map_eq (g := fun n => n.divisors.card) (by rw [Nat.divisors_one, card_singleton])
    (fun _ _ => Nat.Coprime.card_divisors_mul) h
    fun p hp => PrimePower.exponent_succ_eq_card_divisors (h.prime p hp)

theorem prod_divisorSum (h : IsPrimeFactorization n factors) :
    (factors.map PrimePower.divisorSum).prod = ∑ d ∈ n.divisors, d :=
  prod_map_eq (g := fun n => ∑ d ∈ n.divisors, d) (by rw [Nat.divisors_one, sum_singleton])
    (fun _ _ => Nat.Coprime.sum_divisors_mul) h
    fun p hp => PrimePower.divisorSum_eq_sum_divisors (h.prime p hp)

theorem divisorCount_eq_card_divisors (h : IsPrimeFactorization n factors)
    (hn : n < Nat.pow 2 64) : Factorization.divisorCount factors = .ok n.divisors.card := by
  rw [h.divisorCount_eq hn, h.prod_exponent_succ]

theorem divisorSum_eq_sum_divisors (h : IsPrimeFactorization n factors) (hn : n < Nat.pow 2 64) :
    Factorization.divisorSum factors = .ok (∑ d ∈ n.divisors, d) := by
  rw [h.divisorSum_eq hn, h.prod_divisorSum]

end IsPrimeFactorization

/-- Nothing leaves its word when the number of units, the number of divisors and their sum are read
off a factorization: exponents have 32 bits, primes and the two numbers 64 bits, and what is
computed for the sum has 128 bits. No prime is one, so nothing is divided by zero. Results are
multiplied one after the other, and so the beginnings of their lists are what is held meanwhile. -/
structure Factorization.StaysInWords (factors : Factorization) : Prop where
  exponent : ∀ p ∈ factors, 0 < p.exponent ∧ p.exponent + 1 < 2 ^ 32
  prime : ∀ p ∈ factors, 0 < p.prime - 1 ∧ p.prime < 2 ^ 64
  lowerPower : ∀ p ∈ factors, ∀ a b,
    AsksFor (Word.mul 64) 1 p.prime (p.exponent - 1) a b → a * b < 2 ^ 64
  units : ∀ p ∈ factors, p.prime ^ (p.exponent - 1) * (p.prime - 1) < 2 ^ 64
  upperPower : ∀ p ∈ factors, ∀ a b,
    AsksFor (Word.mul 128) 1 p.prime (p.exponent + 1) a b → a * b < 2 ^ 128
  unitProducts : ∀ first, first <+: factors.map PrimePower.units → first.prod < 2 ^ 64
  countProducts : ∀ first, first <+: factors.map (fun p => p.exponent + 1) → first.prod < 2 ^ 64
  sumProducts : ∀ first, first <+: factors.map PrimePower.divisorSum → first.prod < 2 ^ 128

theorem IsPrimeFactorization.staysInWords {n : ℕ} {factors : Factorization}
    (h : IsPrimeFactorization n factors) (hn : n < Nat.pow 2 64) : factors.StaysInWords where
  exponent p hp := by
    have hlt := PrimePower.exponent_lt (h.prime p hp) ((h.value_le hp).trans_lt hn)
    exact ⟨h.exponent_pos p hp, by omega⟩
  prime p hp := by
    have hle := PrimePower.prime_le_value (h.prime p hp) (h.exponent_pos p hp)
    exact ⟨Nat.sub_pos_of_lt (h.prime p hp).one_lt, (hle.trans (h.value_le hp)).trans_lt hn⟩
  lowerPower p hp _ _ := Word.mul_lt_of_asksFor (h.pow_pred_eq hn hp)
  units p hp := by
    have hle := PrimePower.units_le_value (h.exponent_pos p hp)
    exact (hle.trans (h.value_le hp)).trans_lt hn
  upperPower p hp _ _ := Word.mul_lt_of_asksFor (h.pow_succ_eq hn hp)
  unitProducts _ := Word.prod_lt_of_isPrefix
    (List.forall_mem_map.2 fun p hp => PrimePower.units_pos (h.prime p hp))
    ((h.prod_le fun p hp => PrimePower.units_le_value (h.exponent_pos p hp)).trans_lt hn)
  countProducts _ := Word.prod_lt_of_isPrefix
    (List.forall_mem_map.2 fun _ _ => Nat.succ_pos _)
    ((h.prod_le fun p hp => PrimePower.exponent_lt_value (h.prime p hp)).trans_lt hn)
  sumProducts _ := Word.prod_lt_of_isPrefix
    (List.forall_mem_map.2 fun p hp => PrimePower.divisorSum_pos (h.prime p hp))
    (h.prod_divisorSum_lt hn)

namespace Factoring

variable {memory : FactorMemory} {n : ℕ}

/-- As many numbers from one to a given number are coprime to it as from zero to below it. -/
theorem card_coprime_eq_totient (n : ℕ) :
    ((Icc 1 n).filter fun k => k.Coprime n).card = n.totient := by
  rw [← Nat.filter_coprime_Ico_eq_totient n 1, Nat.add_comm, Ico_add_one_right_eq_Icc]
  simp only [Nat.coprime_comm]

theorem divisorCount_isTransparent (hn : 0 < n) (hword : n < Nat.pow 2 64) :
    IsTransparent (divisorCount n) (.ok n.divisors.card) :=
  (factor_isTransparent hn).bind_ok
    (.liftM ((isPrimeFactorization_trialDivision hn).divisorCount_eq_card_divisors hword))

theorem divisorSum_isTransparent (hn : 0 < n) (hword : n < Nat.pow 2 64) :
    IsTransparent (divisorSum n) (.ok (∑ d ∈ n.divisors, d)) :=
  (factor_isTransparent hn).bind_ok
    (.liftM ((isPrimeFactorization_trialDivision hn).divisorSum_eq_sum_divisors hword))

/-- Euler's function, the number of divisors and their sum. With every memory of prime
factorizations and for every positive 64-bit number each call has a value, and the values count the
numbers up to the given one that are coprime to it, count its divisors, and add them up. On the way
from the factorization to the values no power, product or quotient leaves its word. -/
theorem counts_coprime_and_divisors (hmemory : memory.IsFaithful) {n : UInt64} (hn : 0 < n.toNat) :
    ((eulerPhi n.toNat).outcome memory).1 =
      .ok ((Icc 1 n.toNat).filter fun k => k.Coprime n.toNat).card ∧
    ((divisorCount n.toNat).outcome memory).1 = .ok n.toNat.divisors.card ∧
    ((divisorSum n.toNat).outcome memory).1 = .ok (∑ d ∈ n.toNat.divisors, d) ∧
    ∃ factors, ((factor n.toNat).outcome memory).1 = .ok factors ∧ factors.StaysInWords := by
  have hword : n.toNat < Nat.pow 2 64 := n.toNat_lt
  refine ⟨?_, (divisorCount_isTransparent hn hword hmemory).answer,
    (divisorSum_isTransparent hn hword hmemory).answer,
    _, (factor_isTransparent hn hmemory).answer,
    (isPrimeFactorization_trialDivision hn).staysInWords hword⟩
  rw [card_coprime_eq_totient]
  exact (eulerPhi_isTransparent hn hword hmemory).answer

/-- The largest word has 128 divisors, and their sum needs more than 64 bits. -/
theorem counts_coprime_and_divisors_largestWord :
    memoryOfLargestWord.IsFaithful ∧ 0 < (18446744073709551615 : UInt64).toNat ∧
      ((Icc 1 18446744073709551615).filter fun k => k.Coprime 18446744073709551615).card =
        9208981628670443520 ∧
      (Nat.divisors 18446744073709551615).card = 128 ∧
      ∑ d ∈ Nat.divisors 18446744073709551615, d = 31421980989189888768 := by
  have hpos : 0 < (18446744073709551615 : UInt64).toNat := by decide
  obtain ⟨hunits, hcount, hsum, -⟩ :=
    counts_coprime_and_divisors isFaithful_memoryOfLargestWord hpos
  have hunitsValue : ((eulerPhi 18446744073709551615).outcome memoryOfLargestWord).1 =
      .ok 9208981628670443520 := by decide +kernel
  have hcountValue : ((divisorCount 18446744073709551615).outcome memoryOfLargestWord).1 =
      .ok 128 := by decide +kernel
  have hsumValue : ((divisorSum 18446744073709551615).outcome memoryOfLargestWord).1 =
      .ok 31421980989189888768 := by decide +kernel
  exact ⟨isFaithful_memoryOfLargestWord, hpos, Except.ok.inj (hunits.symm.trans hunitsValue),
    Except.ok.inj (hcount.symm.trans hcountValue), Except.ok.inj (hsum.symm.trans hsumValue)⟩

end Factoring

end ExactAlgebra
