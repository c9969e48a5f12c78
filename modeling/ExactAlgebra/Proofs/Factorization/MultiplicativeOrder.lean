import ExactAlgebra.Proofs.Factorization.UnitGroup
import ExactAlgebra.Proofs.Results

/-!
The order of a number modulo another one. The search begins with an exponent that every unit has,
and takes primes out of it as long as the power stays one. Once a prime cannot be taken out of an
exponent, it cannot be taken out of a divisor of that exponent either, so the primes may come in any
order, and what is left after all of them is the order.
-/

namespace ExactAlgebra

/-- The prime cannot be taken out of the exponent with the power staying one. -/
def IsStripped (a m prime exponent : ℕ) : Prop :=
  prime ∣ exponent → ¬ a ^ (exponent / prime) ≡ 1 [MOD m]

/-- An exponent with which the power is one, among the divisors of another exponent. -/
structure IsReducedExponent (a m exponent order : ℕ) : Prop where
  dvd : order ∣ exponent
  pos : 0 < order
  pow_modEq_one : a ^ order ≡ 1 [MOD m]

section Exponents

variable {a m prime exponent smaller order : ℕ}

theorem pow_modEq_one_of_dvd (h : a ^ order ≡ 1 [MOD m]) (hdvd : order ∣ exponent) :
    a ^ exponent ≡ 1 [MOD m] := by
  obtain ⟨factor, rfl⟩ := hdvd
  rw [pow_mul]
  simpa using h.pow factor

/-- A divisor of a stripped exponent is stripped. -/
theorem IsStripped.of_dvd (h : IsStripped a m prime exponent) (hdvd : smaller ∣ exponent) :
    IsStripped a m prime smaller := by
  intro hprime hpow
  have hquotient : smaller / prime ∣ exponent / prime := Nat.div_dvd_div hprime hdvd
  exact h (hprime.trans hdvd) (pow_modEq_one_of_dvd hpow hquotient)

theorem IsReducedExponent.trans (h : IsReducedExponent a m smaller order)
    (hdvd : smaller ∣ exponent) : IsReducedExponent a m exponent order :=
  ⟨h.dvd.trans hdvd, h.pos, h.pow_modEq_one⟩

/-- A reduced exponent without primes that can be taken out is the order. -/
theorem IsReducedExponent.isLeast (h : IsReducedExponent a m exponent order)
    (hstripped : ∀ prime : ℕ, prime.Prime → prime ∣ exponent → IsStripped a m prime order) :
    IsLeast {k | 0 < k ∧ a ^ k ≡ 1 [MOD m]} order := by
  have horder : orderOf (a : ZMod m) = order := by
    refine orderOf_eq_of_pow_and_pow_div_prime h.pos (pow_modEq_one_iff.1 h.pow_modEq_one) ?_
    intro prime hprime hdvd hpow
    exact hstripped prime hprime (hdvd.trans h.dvd) hdvd (pow_modEq_one_iff.2 hpow)
  refine ⟨⟨h.pos, h.pow_modEq_one⟩, ?_⟩
  rintro k ⟨hpos, hpow⟩
  rw [← horder]
  exact orderOf_le_of_pow_eq_one hpos (pow_modEq_one_iff.1 hpow)

end Exponents

namespace Factoring

variable {memory : FactorMemory} {a m prime exponent order : ℕ} {factors : Factorization}

/-- The loop for one prime keeps an exponent with which the power is one, and ends when the prime
cannot be taken out. -/
theorem isReducedExponent_of_stripPrime (hm : 1 < m) (hword : m ≤ Nat.pow 2 64)
    (hprime : prime.Prime) (hpos : 0 < exponent) (hpow : a ^ exponent ≡ 1 [MOD m])
    (h : stripPrime a m prime exponent = .ok order) :
    IsReducedExponent a m exponent order ∧ IsStripped a m prime order := by
  induction exponent using Nat.strongRecOn with
  | ind exponent ih =>
      rw [stripPrime, if_neg hprime.ne_zero] at h
      have hsmaller : exponent / prime < exponent := Nat.div_lt_self hpos hprime.one_lt
      by_cases hdivides : exponent % prime = 0
      · have hdvd : prime ∣ exponent := Nat.dvd_of_mod_eq_zero hdivides
        have hquotient : 0 < exponent / prime :=
          Nat.div_pos (Nat.le_of_dvd hpos hdvd) hprime.pos
        rw [dif_pos ⟨hdivides, hsmaller⟩, Integer.powMod_of_le (Nat.zero_lt_of_lt hm) hword] at h
        have hone : a ^ (exponent / prime) % m = 1 ↔ a ^ (exponent / prime) ≡ 1 [MOD m] := by
          rw [Nat.ModEq, Nat.mod_eq_of_lt hm]
        by_cases hstays : a ^ (exponent / prime) % m = 1
        · obtain ⟨hreduced, hstripped⟩ :=
            ih _ hsmaller hquotient (hone.1 hstays) ((if_pos hstays).symm.trans h)
          exact ⟨hreduced.trans (Nat.div_dvd_of_dvd hdvd), hstripped⟩
        · obtain rfl : exponent = order := Except.ok.inj ((if_neg hstays).symm.trans h)
          exact ⟨⟨dvd_rfl, hpos, hpow⟩, fun _ hstrip => hstays (hone.2 hstrip)⟩
      · rw [dif_neg fun hall => hdivides hall.1] at h
        obtain rfl : exponent = order := Except.ok.inj h
        exact ⟨⟨dvd_rfl, hpos, hpow⟩,
          fun hdvd => absurd (Nat.mod_eq_zero_of_dvd hdvd) hdivides⟩

/-- The loop over the primes leaves an exponent that is stripped of each of them. -/
theorem isReducedExponent_of_stripPrimes (hm : 1 < m) (hword : m ≤ Nat.pow 2 64)
    (hprime : ∀ p ∈ factors, p.prime.Prime) (hpos : 0 < exponent)
    (hpow : a ^ exponent ≡ 1 [MOD m]) (h : stripPrimes a m factors exponent = .ok order) :
    IsReducedExponent a m exponent order ∧ ∀ p ∈ factors, IsStripped a m p.prime order := by
  induction factors generalizing exponent with
  | nil =>
      obtain rfl : exponent = order := Except.ok.inj h
      exact ⟨⟨dvd_rfl, hpos, hpow⟩, nofun⟩
  | cons p rest ih =>
      rw [List.forall_mem_cons] at hprime ⊢
      rw [stripPrimes, List.foldlM_cons] at h
      obtain ⟨between, hfirst, hrest⟩ := eq_ok_of_bind h
      obtain ⟨hbetween, hstripped⟩ :=
        isReducedExponent_of_stripPrime hm hword hprime.1 hpos hpow hfirst
      obtain ⟨hreduced, hothers⟩ := ih hprime.2 hbetween.pos hbetween.pow_modEq_one hrest
      exact ⟨hreduced.trans hbetween.dvd, hstripped.of_dvd hreduced.dvd, hothers⟩

theorem multiplicativeOrder_zero_isTransparent (a : ℕ) :
    IsTransparent (multiplicativeOrder a 0) (.error .notPositive) := by
  rw [multiplicativeOrder, if_pos rfl]
  exact .throw _

theorem multiplicativeOrder_isTransparent_none (hm : 0 < m) (ha : ¬ a.Coprime m) :
    IsTransparent (multiplicativeOrder a m) (.ok none) := by
  rw [multiplicativeOrder, if_neg hm.ne', if_pos ha]
  exact .pure _

/-- A number coprime to the modulus has an order, and every faithful memory leads to it. -/
theorem exists_multiplicativeOrder (hm : 0 < m) (hword : m < Nat.pow 2 64) (ha : a.Coprime m) :
    ∃ order, IsTransparent (multiplicativeOrder a m) (.ok (some order)) ∧
      IsLeast {k | 0 < k ∧ a ^ k ≡ 1 [MOD m]} order := by
  unfold multiplicativeOrder
  rw [if_neg hm.ne', if_neg (not_not.2 ha)]
  by_cases hone : m = 1
  · rw [if_pos hone]
    refine ⟨1, .pure _, ⟨Nat.one_pos, ?_⟩, fun k hk => hk.1⟩
    rw [hone]
    exact Nat.modEq_one
  · obtain ⟨hpos, hpow⟩ := (isLeast_carmichael hm).1
    have hfactors := isPrimeFactorization_trialDivision hpos
    obtain ⟨order, horder⟩ := exists_stripPrimes (a := a) hm hword.le hfactors
      (ArithmeticFunction.carmichael m)
    obtain ⟨hreduced, hstripped⟩ := isReducedExponent_of_stripPrimes (by omega) hword.le
      hfactors.prime hpos (hpow a ha) horder
    rw [if_neg hone]
    refine ⟨order, ?_, hreduced.isLeast ?_⟩
    · exact (carmichael_isTransparent_carmichael hm hword).bind_ok
        ((factor_isTransparent hpos).bind_ok ((IsTransparent.liftM horder).bind_ok (.pure _)))
    · intro prime hprime hdvd
      obtain ⟨p, hp, rfl⟩ := hfactors.exists_mem_of_dvd hprime hdvd
      exact hstripped p hp

/-- The order of a number modulo another one. With every memory of prime factorizations and for all
64-bit numbers, the call is rejected exactly when the modulus is zero, and for no other reason.
Otherwise it finds no order exactly when the numbers are not coprime, and the order that it finds is
the least positive exponent with which the power is one, which is one for the modulus one. -/
theorem multiplicativeOrder_isLeast (hmemory : memory.IsFaithful) (a m : UInt64) :
    (∀ cause, ((multiplicativeOrder a.toNat m.toNat).outcome memory).1 = .error cause ↔
      m.toNat = 0 ∧ cause = .notPositive) ∧
    (0 < m.toNat →
      (((multiplicativeOrder a.toNat m.toNat).outcome memory).1 = .ok none ↔
        Nat.gcd a.toNat m.toNat ≠ 1) ∧
      (Nat.gcd a.toNat m.toNat = 1 →
        ∃ order, ((multiplicativeOrder a.toNat m.toNat).outcome memory).1 = .ok (some order) ∧
          IsLeast {k | 0 < k ∧ a.toNat ^ k ≡ 1 [MOD m.toNat]} order ∧
          (m.toNat = 1 → order = 1))) := by
  rcases Nat.eq_zero_or_pos m.toNat with hzero | hm
  · have hanswer := (multiplicativeOrder_zero_isTransparent a.toNat hmemory).answer
    rw [hzero, hanswer]
    simp [eq_comm]
  by_cases hcoprime : a.toNat.Coprime m.toNat
  · obtain ⟨order, horder, hleast⟩ := exists_multiplicativeOrder hm m.toNat_lt hcoprime
    rw [(horder hmemory).answer]
    refine ⟨by simp [hm.ne'], fun _ => ⟨by simpa using hcoprime, fun _ => ?_⟩⟩
    refine ⟨order, rfl, hleast, ?_⟩
    intro hone
    rw [hone] at hleast
    exact Nat.le_antisymm (hleast.2 ⟨Nat.one_pos, Nat.modEq_one⟩) hleast.1.1
  · rw [(multiplicativeOrder_isTransparent_none hm hcoprime hmemory).answer]
    exact ⟨by simp [hm.ne'], fun _ => ⟨by simpa using hcoprime, fun h => absurd h hcoprime⟩⟩

/-- Modulo the largest word the powers of two return after 64 doublings. -/
theorem multiplicativeOrder_isLeast_largestWord :
    memoryOfLargestWord.IsFaithful ∧
      ((multiplicativeOrder 2 18446744073709551615).outcome memoryOfLargestWord).1 =
        .ok (some 64) ∧
      IsLeast {k | 0 < k ∧ 2 ^ k ≡ 1 [MOD 18446744073709551615]} 64 := by
  have h := multiplicativeOrder_isLeast isFaithful_memoryOfLargestWord 2 18446744073709551615
  obtain ⟨order, hanswer, hleast, _⟩ := (h.2 (by decide)).2 (by decide)
  have hvalue : ((multiplicativeOrder 2 18446744073709551615).outcome memoryOfLargestWord).1 =
      .ok (some 64) := by decide +kernel
  obtain rfl : order = 64 := Option.some.inj (Except.ok.inj (hanswer.symm.trans hvalue))
  exact ⟨isFaithful_memoryOfLargestWord, hvalue, hleast⟩

end Factoring

end ExactAlgebra
