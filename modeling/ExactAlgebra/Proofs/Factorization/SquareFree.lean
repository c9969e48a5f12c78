import ExactAlgebra.Proofs.Factorization.UnitGroup
import Mathlib.NumberTheory.ArithmeticFunction.Moebius
import Mathlib.RingTheory.Radical.NatInt

/-!
Squares that divide a number. A number is free of squares if none of its primes occurs twice. The
signs of prime powers multiply over coprime numbers to the Moebius function, and the primes multiply
to the radical, of which every square-free divisor is a divisor.
-/

namespace ExactAlgebra

open ArithmeticFunction Finset

/-- No square but one divides a square-free number. -/
theorem squarefree_iff_forall_not_dvd {n : ℕ} (hn : 0 < n) :
    Squarefree n ↔ ∀ d, 1 < d → ¬ d * d ∣ n := by
  constructor
  · intro h d hd hdvd
    exact hd.ne' (Nat.isUnit_iff.1 (h d hdvd))
  · intro h d hdvd
    have hpos : 0 < d := Nat.pos_of_mul_pos_left (Nat.pos_of_dvd_of_pos hdvd hn)
    have hle : d ≤ 1 := Nat.le_of_not_lt fun hlt => h d hlt hdvd
    exact Nat.isUnit_iff.2 (Nat.le_antisymm hle hpos)

/-- The radical is the largest square-free divisor. -/
theorem isGreatest_radical {n : ℕ} (hn : 0 < n) :
    IsGreatest {d | d ∣ n ∧ Squarefree d} (UniqueFactorizationMonoid.radical n) := by
  refine ⟨⟨UniqueFactorizationMonoid.radical_dvd_self,
    UniqueFactorizationMonoid.squarefree_radical⟩, ?_⟩
  rintro d ⟨hdvd, hfree⟩
  exact Nat.le_of_dvd (Nat.radical_pos n)
    ((UniqueFactorizationMonoid.dvd_radical_iff hfree.isRadical hn.ne').2 hdvd)

/-- The Moebius function adds up to zero over the divisors of every number but one. -/
theorem sum_moebius_divisors (n : ℕ) :
    ∑ d ∈ n.divisors, ArithmeticFunction.moebius d = if n = 1 then 1 else 0 := by
  rw [← coe_mul_zeta_apply, moebius_mul_coe_zeta, one_apply]

/-- In a square-free number every prime is counted once. -/
theorem moebius_eq_neg_one_pow {n : ℕ} (h : Squarefree n) :
    ArithmeticFunction.moebius n = (-1) ^ n.primeFactors.card := by
  rw [moebius_apply_of_squarefree h,
    ← (cardDistinctFactors_eq_cardFactors_iff_squarefree h.ne_zero).2 h, cardDistinctFactors_apply,
    ← List.card_toFinset, Nat.primeFactors]

namespace PrimePower

variable {p : PrimePower}

/-- What a prime power contributes to the Moebius function. -/
def sign (p : PrimePower) : ℤ := if 1 < p.exponent then 0 else -1

theorem sign_eq_moebius (hprime : p.prime.Prime) (hexponent : 0 < p.exponent) :
    p.sign = ArithmeticFunction.moebius p.value := by
  rw [value, moebius_apply_prime_pow hprime hexponent.ne', sign]
  by_cases hone : p.exponent = 1
  · rw [if_neg (by omega), if_pos hone]
  · rw [if_pos (by omega), if_neg hone]

theorem prime_eq_radical (hprime : p.prime.Prime) (hexponent : 0 < p.exponent) :
    p.prime = UniqueFactorizationMonoid.radical p.value := by
  rw [value, UniqueFactorizationMonoid.radical_pow_of_prime hprime.prime hexponent.ne',
    normalize_eq]

end PrimePower

/-- A prime that occurs twice makes the product zero, and every other one changes its sign. -/
theorem Factorization.moebius_eq_prod (factors : Factorization) :
    moebius factors = (factors.map PrimePower.sign).prod := by
  induction factors with
  | nil => rfl
  | cons p rest ih =>
      rw [List.map_cons, List.prod_cons, ← ih, PrimePower.sign]
      unfold moebius
      rw [List.any_cons, List.length_cons]
      by_cases htwice : 1 < p.exponent
      · simp [htwice]
      · by_cases hrest : rest.any fun q => decide (1 < q.exponent)
        · simp [hrest]
        · simp only [htwice, hrest, decide_false, Bool.or_self, Bool.false_eq_true, if_false]
          split <;> split <;> omega

namespace IsPrimeFactorization

variable {n : ℕ} {factors : Factorization}

theorem isSquareFree_iff_squarefree (h : IsPrimeFactorization n factors) :
    Factorization.isSquareFree factors = true ↔ Squarefree n := by
  rw [Nat.squarefree_iff_factorization_le_one h.pos.ne', Factorization.isSquareFree,
    List.all_eq_true]
  constructor
  · intro hall prime
    by_cases hdvd : prime.Prime ∧ prime ∣ n
    · obtain ⟨p, hp, rfl⟩ := h.exists_mem_of_dvd hdvd.1 hdvd.2
      rw [h.factorization_eq hp, beq_iff_eq.1 (hall p hp)]
    · have hzero : n.factorization prime = 0 :=
        (Nat.factorization_eq_zero_iff n prime).2 (by tauto)
      rw [hzero]
      exact Nat.zero_le 1
  · intro hle p hp
    have hexponent := hle p.prime
    rw [h.factorization_eq hp] at hexponent
    exact beq_iff_eq.2 (Nat.le_antisymm hexponent (h.exponent_pos p hp))

theorem moebius_eq_moebius (h : IsPrimeFactorization n factors) :
    Factorization.moebius factors = ArithmeticFunction.moebius n := by
  rw [Factorization.moebius_eq_prod]
  exact h.prod_map_eq isMultiplicative_moebius.map_one
    (fun _ _ => isMultiplicative_moebius.map_mul_of_coprime)
    fun p hp => PrimePower.sign_eq_moebius (h.prime p hp) (h.exponent_pos p hp)

theorem radical_eq_radical (h : IsPrimeFactorization n factors) (hn : n < Nat.pow 2 64) :
    Factorization.radical factors = .ok (UniqueFactorizationMonoid.radical n) := by
  have hprod : (factors.map PrimePower.prime).prod = UniqueFactorizationMonoid.radical n :=
    h.prod_map_eq UniqueFactorizationMonoid.radical_one
      (fun _ _ hcoprime =>
        UniqueFactorizationMonoid.radical_mul (Nat.coprime_iff_isRelPrime.1 hcoprime))
      fun p hp => PrimePower.prime_eq_radical (h.prime p hp) (h.exponent_pos p hp)
  rw [h.radical_eq hn, hprod]

end IsPrimeFactorization

namespace Factoring

variable {memory : FactorMemory} {n : ℕ}

theorem isSquareFree_isTransparent (hn : 0 < n) :
    ∃ squareFree, IsTransparent (isSquareFree n) (.ok squareFree) ∧
      (squareFree = true ↔ Squarefree n) :=
  ⟨_, (factor_isTransparent hn).bind_ok (.liftM rfl),
    (isPrimeFactorization_trialDivision hn).isSquareFree_iff_squarefree⟩

theorem moebius_isTransparent (hn : 0 < n) :
    IsTransparent (moebius n) (.ok (ArithmeticFunction.moebius n)) :=
  (factor_isTransparent hn).bind_ok
    (.liftM (congrArg Except.ok (isPrimeFactorization_trialDivision hn).moebius_eq_moebius))

theorem radical_isTransparent (hn : 0 < n) (hword : n < Nat.pow 2 64) :
    IsTransparent (radical n) (.ok (UniqueFactorizationMonoid.radical n)) :=
  (factor_isTransparent hn).bind_ok
    (.liftM ((isPrimeFactorization_trialDivision hn).radical_eq_radical hword))

/-- Square-freeness, the Moebius function and the radical. With every memory of prime factorizations
and for every positive 64-bit number the three calls have values. The first says whether no square
but one divides the number, the second is zero if one does and the parity of the number of primes
otherwise, so that its values for the divisors of the number add up to zero unless the number is
one, and the third is the largest divisor that no square divides. -/
theorem squares_of_isFaithful (hmemory : memory.IsFaithful) {n : UInt64} (hn : 0 < n.toNat) :
    ∃ (squareFree : Bool) (sign : ℕ → ℤ) (root : ℕ),
      ((isSquareFree n.toNat).outcome memory).1 = .ok squareFree ∧
      ((moebius n.toNat).outcome memory).1 = .ok (sign n.toNat) ∧
      ((radical n.toNat).outcome memory).1 = .ok root ∧
      (squareFree = true ↔ ∀ d, 1 < d → ¬ d * d ∣ n.toNat) ∧
      (sign n.toNat = 0 ↔ squareFree = false) ∧
      (squareFree = true → sign n.toNat = (-1) ^ n.toNat.primeFactors.card) ∧
      (∀ d ∈ n.toNat.divisors, ∀ other : FactorMemory, other.IsFaithful →
        ((moebius d).outcome other).1 = .ok (sign d)) ∧
      ∑ d ∈ n.toNat.divisors, sign d = (if n.toNat = 1 then 1 else 0) ∧
      IsGreatest {d | d ∣ n.toNat ∧ ∀ e, 1 < e → ¬ e * e ∣ d} root := by
  obtain ⟨squareFree, hanswer, hfree⟩ := isSquareFree_isTransparent hn
  refine ⟨squareFree, ArithmeticFunction.moebius, _, (hanswer hmemory).answer,
    (moebius_isTransparent hn hmemory).answer,
    (radical_isTransparent hn n.toNat_lt hmemory).answer,
    hfree.trans (squarefree_iff_forall_not_dvd hn), ?_,
    fun h => moebius_eq_neg_one_pow (hfree.1 h), ?_, sum_moebius_divisors _, ?_⟩
  · rw [← not_iff_not, Bool.not_eq_false, hfree]
    exact moebius_ne_zero_iff_squarefree
  · intro d hd other hother
    exact (moebius_isTransparent (Nat.pos_of_mem_divisors hd) hother).answer
  · have hsets : {d | d ∣ n.toNat ∧ ∀ e, 1 < e → ¬ e * e ∣ d} =
        {d | d ∣ n.toNat ∧ Squarefree d} := by
      ext d
      refine and_congr_right fun hdvd => ?_
      exact (squarefree_iff_forall_not_dvd (Nat.pos_of_dvd_of_pos hdvd hn)).symm
    rw [hsets]
    exact isGreatest_radical hn

/-- A multiple of a high power of two with five more primes: squares divide it, and its radical is
twice the product of those primes. -/
theorem squares_of_isFaithful_powerOfTwo :
    memoryOfLargestWord.IsFaithful ∧ 0 < (18446744069414584320 : UInt64).toNat ∧
      ((isSquareFree 18446744069414584320).outcome memoryOfLargestWord).1 = .ok false ∧
      ((moebius 18446744069414584320).outcome memoryOfLargestWord).1 = .ok 0 ∧
      (∃ sign : ℕ → ℤ,
        (∀ d ∈ Nat.divisors 18446744069414584320,
          ((moebius d).outcome memoryOfLargestWord).1 = .ok (sign d)) ∧
        ∑ d ∈ Nat.divisors 18446744069414584320, sign d = 0) ∧
      IsGreatest {d | d ∣ 18446744069414584320 ∧ ∀ e, 1 < e → ¬ e * e ∣ d} 8589934590 := by
  have hpos : 0 < (18446744069414584320 : UInt64).toNat := by decide
  obtain ⟨squareFree, sign, root, hfree, hsign, hroot, -, hzero, -, hsigns, hsum, hgreatest⟩ :=
    squares_of_isFaithful isFaithful_memoryOfLargestWord hpos
  have hfreeValue : ((isSquareFree 18446744069414584320).outcome memoryOfLargestWord).1 =
      .ok false := by decide +kernel
  have hrootValue : ((radical 18446744069414584320).outcome memoryOfLargestWord).1 =
      .ok 8589934590 := by decide +kernel
  obtain rfl : squareFree = false := Except.ok.inj (hfree.symm.trans hfreeValue)
  obtain rfl : root = 8589934590 := Except.ok.inj (hroot.symm.trans hrootValue)
  exact ⟨isFaithful_memoryOfLargestWord, hpos, hfree, hsign.trans (congrArg _ (hzero.2 rfl)),
    ⟨sign, fun d hd => hsigns d hd _ isFaithful_memoryOfLargestWord, hsum⟩, hgreatest⟩

end Factoring

end ExactAlgebra
