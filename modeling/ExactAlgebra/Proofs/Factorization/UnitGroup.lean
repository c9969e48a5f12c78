import ExactAlgebra.Proofs.Factorization.Memory
import Mathlib.NumberTheory.ArithmeticFunction.Carmichael

/-!
The units modulo a number. The units modulo a power of an odd prime form a cyclic group, so their
exponent is their number; from eight on those modulo a power of two do not, and their exponent is
half of that. Modulo a product of powers of distinct primes a unit is a unit modulo each power, so
exponents combine to their least common multiple and numbers of units multiply. What is read off a
prime factorization is therefore the exponent of the group of units, and the number of units.
-/

namespace ExactAlgebra

open ArithmeticFunction

namespace PrimePower

variable {p : PrimePower}

theorem units_eq_totient (hprime : p.prime.Prime) (hexponent : 0 < p.exponent) :
    p.units = p.value.totient :=
  (Nat.totient_prime_pow hprime hexponent).symm

/-- The exponent of a prime power is that of the group of units modulo it. -/
theorem unitExponent_eq_carmichael (hprime : p.prime.Prime) (hexponent : 0 < p.exponent) :
    p.unitExponent = carmichael p.value := by
  by_cases htwo : p.prime = 2
  · rw [unitExponent, units, value, htwo]
    by_cases hlarge : 2 < p.exponent
    · rw [if_pos ⟨rfl, hlarge⟩, carmichael_two_pow_of_ne_two hlarge.ne']
    · rw [if_neg fun h => hlarge h.2, carmichael_two_pow_of_le_two (Nat.le_of_not_lt hlarge)]
      exact Nat.mul_one _
  · rw [unitExponent, if_neg fun h => htwo h.1, units_eq_totient hprime hexponent, value,
      carmichael_pow_of_prime_ne_two _ hprime htwo]

end PrimePower

namespace IsPrimeFactorization

variable {n : ℕ} {p : PrimePower} {factors : Factorization}

/-- A prime power has no divisor in common with the product of those after it. -/
theorem coprime_tail (h : IsPrimeFactorization n (p :: factors)) :
    p.value.Coprime (factors.map PrimePower.value).prod := by
  have hprime : p.prime.Prime := h.prime p List.mem_cons_self
  refine Nat.Coprime.pow_left _ ((Nat.Prime.coprime_iff_not_dvd hprime).2 ?_)
  intro hdvd
  obtain ⟨q, hq, heq⟩ := h.tail.exists_mem_of_dvd hprime hdvd
  exact ((List.pairwise_cons.1 h.ascending).1 q hq).ne' heq

theorem eq_value_mul (h : IsPrimeFactorization n (p :: factors)) :
    n = p.value * (factors.map PrimePower.value).prod := by
  rw [← h.product, List.map_cons, List.prod_cons]

/-- What multiplies over coprime numbers is the product of what it is for the prime powers. -/
theorem prod_map_eq {M : Type} [CommMonoid M] {f : PrimePower → M} {g : ℕ → M} (hone : g 1 = 1)
    (hmul : ∀ a b : ℕ, a.Coprime b → g (a * b) = g a * g b)
    (h : IsPrimeFactorization n factors) (hpowers : ∀ p ∈ factors, f p = g p.value) :
    (factors.map f).prod = g n := by
  induction factors generalizing n with
  | nil =>
      obtain rfl : 1 = n := h.product
      exact hone.symm
  | cons p rest ih =>
      rw [List.forall_mem_cons] at hpowers
      rw [List.map_cons, List.prod_cons, ih h.tail hpowers.2, hpowers.1, ← hmul _ _ h.coprime_tail,
        ← h.eq_value_mul]

/-- The least common multiple of the exponents of the prime powers, taken from any number on, is
that with the exponent of the group of units modulo the number. -/
theorem foldl_lcm_unitExponent (h : IsPrimeFactorization n factors) (start : ℕ) :
    (factors.map PrimePower.unitExponent).foldl Nat.lcm start = Nat.lcm start (carmichael n) := by
  induction factors generalizing n start with
  | nil =>
      obtain rfl : 1 = n := h.product
      have hone : carmichael 1 = 1 := by
        rw [carmichael_eq_exponent Nat.one_ne_zero]
        exact Monoid.exp_eq_one_of_subsingleton
      rw [hone, Nat.lcm_one_right]
      rfl
  | cons p rest ih =>
      have hexponent : p.unitExponent = carmichael p.value :=
        PrimePower.unitExponent_eq_carmichael (h.prime p List.mem_cons_self)
          (h.exponent_pos p List.mem_cons_self)
      rw [List.map_cons, List.foldl_cons, ih h.tail, hexponent, Nat.lcm_assoc,
        ← carmichael_mul h.coprime_tail, ← h.eq_value_mul]

/-- The numbers of units modulo the prime powers multiply to that modulo the number. -/
theorem prod_units (h : IsPrimeFactorization n factors) :
    (factors.map PrimePower.units).prod = n.totient :=
  prod_map_eq Nat.totient_one (fun _ _ => Nat.totient_mul) h
    fun p hp => PrimePower.units_eq_totient (h.prime p hp) (h.exponent_pos p hp)

theorem groupExponent_eq_carmichael (h : IsPrimeFactorization n factors) (hn : n < Nat.pow 2 64) :
    Factorization.groupExponent factors = .ok (carmichael n) := by
  rw [(h.groupExponent_eq hn).1, h.foldl_lcm_unitExponent, Nat.lcm_one_left]

theorem totient_eq_totient (h : IsPrimeFactorization n factors) (hn : n < Nat.pow 2 64) :
    Factorization.totient factors = .ok n.totient := by
  rw [h.totient_eq hn, h.prod_units]

end IsPrimeFactorization

/-- Powers that are one modulo a number, among its residues. -/
theorem pow_modEq_one_iff {a exponent n : ℕ} :
    a ^ exponent ≡ 1 [MOD n] ↔ (a : ZMod n) ^ exponent = 1 := by
  rw [← ZMod.natCast_eq_natCast_iff]
  push_cast
  rfl

/-- Every unit modulo a positive number is the residue of a number coprime to it. -/
theorem forall_pow_modEq_one_iff {n : ℕ} (hn : 0 < n) (exponent : ℕ) :
    (∀ a : ℕ, a.Coprime n → a ^ exponent ≡ 1 [MOD n]) ↔
      ∀ unit : (ZMod n)ˣ, unit ^ exponent = 1 := by
  have : NeZero n := ⟨hn.ne'⟩
  constructor
  · intro h unit
    have hpow := pow_modEq_one_iff.1 (h _ (ZMod.val_coe_unit_coprime unit))
    rw [ZMod.natCast_zmod_val] at hpow
    exact Units.ext hpow
  · intro h a ha
    have hpow := congrArg Units.val (h (ZMod.unitOfCoprime a ha))
    rw [Units.val_pow_eq_pow_val, ZMod.coe_unitOfCoprime, Units.val_one] at hpow
    exact pow_modEq_one_iff.2 hpow

/-- The exponent of the group of units is the least positive exponent that all of them have. -/
theorem isLeast_carmichael {n : ℕ} (hn : 0 < n) :
    IsLeast {k | 0 < k ∧ ∀ a : ℕ, a.Coprime n → a ^ k ≡ 1 [MOD n]} (carmichael n) := by
  have : NeZero n := ⟨hn.ne'⟩
  rw [carmichael_eq_exponent hn.ne']
  constructor
  · exact ⟨Monoid.exponent_pos_of_exists _ (Nat.totient_pos.2 hn) ZMod.pow_totient,
      (forall_pow_modEq_one_iff hn _).2 Monoid.pow_exponent_eq_one⟩
  · rintro k ⟨hpos, hpow⟩
    exact Monoid.exponent_min' k hpos ((forall_pow_modEq_one_iff hn k).1 hpow)

namespace Factoring

variable {memory : FactorMemory} {n : ℕ}

theorem carmichael_isTransparent_carmichael (hn : 0 < n) (hword : n < Nat.pow 2 64) :
    IsTransparent (carmichael n) (.ok (ArithmeticFunction.carmichael n)) :=
  (factor_isTransparent hn).bind_ok
    (.liftM ((isPrimeFactorization_trialDivision hn).groupExponent_eq_carmichael hword))

theorem eulerPhi_isTransparent (hn : 0 < n) (hword : n < Nat.pow 2 64) :
    IsTransparent (eulerPhi n) (.ok n.totient) :=
  (factor_isTransparent hn).bind_ok
    (.liftM ((isPrimeFactorization_trialDivision hn).totient_eq_totient hword))

/-- The exponent of the group of units. With every memory of prime factorizations and for every
positive 64-bit number the call has a value, and the value is the least positive exponent with which
the power of every number coprime to the given one is one. It is the exponent of the group of units,
and divides the number of units, which is what Euler's function answers. -/
theorem carmichael_isLeast (hmemory : memory.IsFaithful) {n : UInt64} (hn : 0 < n.toNat) :
    ∃ exponent, ((carmichael n.toNat).outcome memory).1 = .ok exponent ∧
      IsLeast {k | 0 < k ∧ ∀ a : ℕ, a.Coprime n.toNat → a ^ k ≡ 1 [MOD n.toNat]} exponent ∧
      exponent = Monoid.exponent (ZMod n.toNat)ˣ ∧
      exponent ∣ n.toNat.totient ∧
      ∀ other : FactorMemory, other.IsFaithful →
        ((eulerPhi n.toNat).outcome other).1 = .ok n.toNat.totient := by
  refine ⟨_, (carmichael_isTransparent_carmichael hn n.toNat_lt hmemory).answer,
    isLeast_carmichael hn, carmichael_eq_exponent hn.ne', carmichael_dvd_totient _, ?_⟩
  intro other hother
  exact (eulerPhi_isTransparent hn n.toNat_lt hother).answer

/-- A memory with room for one factorization, and that of the largest word in it. -/
def memoryOfLargestWord : FactorMemory :=
  (RecentMap.empty 1).insert 18446744073709551615
    [⟨3, 1⟩, ⟨5, 1⟩, ⟨17, 1⟩, ⟨257, 1⟩, ⟨641, 1⟩, ⟨65537, 1⟩, ⟨6700417, 1⟩]

theorem isFaithful_memoryOfLargestWord : memoryOfLargestWord.IsFaithful :=
  (FactorMemory.isFaithful_empty 1).insert isPrimeFactorization_largestWord

/-- The largest word is a product of seven primes, and the exponents modulo them share most of their
factors. -/
theorem carmichael_isLeast_largestWord :
    memoryOfLargestWord.IsFaithful ∧ 0 < (18446744073709551615 : UInt64).toNat ∧
      ((carmichael 18446744073709551615).outcome memoryOfLargestWord).1 = .ok 17153064960 ∧
      IsLeast {k | 0 < k ∧ ∀ a : ℕ, a.Coprime 18446744073709551615 →
        a ^ k ≡ 1 [MOD 18446744073709551615]} 17153064960 := by
  have hpos : 0 < (18446744073709551615 : UInt64).toNat := by decide
  obtain ⟨exponent, hanswer, hleast, _⟩ := carmichael_isLeast isFaithful_memoryOfLargestWord hpos
  have hvalue : ((carmichael 18446744073709551615).outcome memoryOfLargestWord).1 =
      .ok 17153064960 := by decide +kernel
  obtain rfl : exponent = 17153064960 := Except.ok.inj (hanswer.symm.trans hvalue)
  exact ⟨isFaithful_memoryOfLargestWord, hpos, hvalue, hleast⟩

end Factoring

end ExactAlgebra
