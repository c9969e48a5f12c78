import ExactAlgebra.Factorization.Memory
import ExactAlgebra.Proofs.Factorization.TrialDivision
import ExactAlgebra.Proofs.Word

/-!
The arithmetic functions of a prime factorization. For a number that fits in 64 bits none of them
leaves its word, so each has a value, and the value is the product, or the least common multiple, of
what the prime powers contribute.
-/

namespace ExactAlgebra

namespace PrimePower

/-- The number of units modulo the prime power. -/
def units (p : PrimePower) : ℕ := p.prime ^ (p.exponent - 1) * (p.prime - 1)

def divisorSum (p : PrimePower) : ℕ := (p.prime ^ (p.exponent + 1) - 1) / (p.prime - 1)

/-- The exponent of the group of units modulo the prime power. -/
def unitExponent (p : PrimePower) : ℕ :=
  if p.prime = 2 ∧ 2 < p.exponent then 2 ^ (p.exponent - 2) else p.units

variable {p : PrimePower}

theorem pow_le_value (hprime : p.prime.Prime) {exponent : ℕ} (h : exponent ≤ p.exponent) :
    p.prime ^ exponent ≤ p.value :=
  Nat.pow_le_pow_right hprime.pos h

theorem prime_le_value (hprime : p.prime.Prime) (hexponent : 0 < p.exponent) :
    p.prime ≤ p.value := by
  have hpow : p.prime ^ 1 ≤ p.value := pow_le_value hprime hexponent
  rwa [pow_one] at hpow

theorem exponent_lt_value (hprime : p.prime.Prime) : p.exponent < p.value :=
  Nat.lt_pow_self hprime.one_lt

theorem units_pos (hprime : p.prime.Prime) : 0 < p.units :=
  Nat.mul_pos (Nat.pow_pos hprime.pos) (Nat.sub_pos_of_lt hprime.one_lt)

theorem units_le_value (hexponent : 0 < p.exponent) : p.units ≤ p.value := by
  calc p.units ≤ p.prime ^ (p.exponent - 1) * p.prime :=
        Nat.mul_le_mul_left _ (Nat.sub_le p.prime 1)
    _ = p.value := by rw [← pow_succ, Nat.sub_add_cancel hexponent, value]

theorem unitExponent_pos (hprime : p.prime.Prime) : 0 < p.unitExponent := by
  unfold unitExponent
  split
  · exact Nat.pow_pos Nat.two_pos
  · exact units_pos hprime

theorem unitExponent_le_value (hprime : p.prime.Prime) (hexponent : 0 < p.exponent) :
    p.unitExponent ≤ p.value := by
  unfold unitExponent
  split
  · rename_i htwo
    rw [← htwo.1]
    exact pow_le_value hprime (Nat.sub_le _ _)
  · exact units_le_value hexponent

theorem pow_succ_le (hprime : p.prime.Prime) (hexponent : 0 < p.exponent) :
    p.prime ^ (p.exponent + 1) ≤ p.value * p.value := by
  rw [pow_succ]
  exact Nat.mul_le_mul_left _ (prime_le_value hprime hexponent)

theorem divisorSum_pos (hprime : p.prime.Prime) : 0 < p.divisorSum := by
  have hunits : 0 < p.prime - 1 := Nat.sub_pos_of_lt hprime.one_lt
  have hle : p.prime ≤ p.prime ^ (p.exponent + 1) := Nat.le_self_pow (Nat.succ_ne_zero _) _
  exact Nat.div_pos (Nat.sub_le_sub_right hle 1) hunits

theorem divisorSum_le (hprime : p.prime.Prime) (hexponent : 0 < p.exponent) :
    p.divisorSum ≤ p.value * p.value :=
  (Nat.div_le_self _ _).trans ((Nat.sub_le _ _).trans (pow_succ_le hprime hexponent))

end PrimePower

namespace IsPrimeFactorization

variable {n : ℕ} {p : PrimePower} {factors : Factorization}

theorem value_le (h : IsPrimeFactorization n factors) (hp : p ∈ factors) : p.value ≤ n := by
  have hvalue : p.value ∣ n := h.product ▸ List.dvd_prod (List.mem_map_of_mem hp)
  exact Nat.le_of_dvd h.pos hvalue

/-- A product over the primes that stays below each prime power stays below the number. -/
theorem prod_le (h : IsPrimeFactorization n factors) {f : PrimePower → ℕ}
    (hle : ∀ p ∈ factors, f p ≤ p.value) : (factors.map f).prod ≤ n := by
  rw [← h.product]
  exact List.prod_map_le_prod_map₀ f PrimePower.value (fun _ _ => Nat.zero_le _) hle

theorem product_of_le (h : IsPrimeFactorization n factors) (hn : n < Nat.pow 2 64)
    {f : PrimePower → ℕ} (hpos : ∀ p ∈ factors, 0 < f p) (hle : ∀ p ∈ factors, f p ≤ p.value) :
    Word.product 64 (factors.map f) = .ok (factors.map f).prod := by
  apply Word.product_of_lt
  · exact List.forall_mem_map.2 hpos
  · exact (h.prod_le hle).trans_lt hn

/-- The power below a prime power fits in 64 bits. -/
theorem pow_pred_eq (h : IsPrimeFactorization n factors) (hn : n < Nat.pow 2 64)
    (hp : p ∈ factors) :
    Word.pow 64 p.prime (p.exponent - 1) = .ok (p.prime ^ (p.exponent - 1)) := by
  have hprime := h.prime p hp
  have hvalue := (h.value_le hp).trans_lt hn
  exact Word.pow_of_lt hprime.pos
    ((PrimePower.pow_le_value hprime (Nat.sub_le _ _)).trans_lt hvalue)

/-- The power above a prime power fits in 128 bits. -/
theorem pow_succ_eq (h : IsPrimeFactorization n factors) (hn : n < Nat.pow 2 64)
    (hp : p ∈ factors) :
    Word.pow 128 p.prime (p.exponent + 1) = .ok (p.prime ^ (p.exponent + 1)) := by
  have hprime := h.prime p hp
  have hvalue := (h.value_le hp).trans_lt hn
  have hlt : p.prime ^ (p.exponent + 1) < Nat.pow 2 128 := by
    calc p.prime ^ (p.exponent + 1) ≤ p.value * p.value :=
          PrimePower.pow_succ_le hprime (h.exponent_pos p hp)
      _ < Nat.pow 2 64 * Nat.pow 2 64 := Nat.mul_lt_mul'' hvalue hvalue
      _ = Nat.pow 2 128 := by decide
  exact Word.pow_of_lt hprime.pos hlt

theorem unitCount_eq (h : IsPrimeFactorization n factors) (hn : n < Nat.pow 2 64)
    (hp : p ∈ factors) : Factorization.unitCount p = .ok p.units := by
  have hprime := h.prime p hp
  have hexponent := h.exponent_pos p hp
  have hvalue := (h.value_le hp).trans_lt hn
  have hsub : Word.sub p.exponent 1 = .ok (p.exponent - 1) := if_pos hexponent
  have hunits : Word.sub p.prime 1 = .ok (p.prime - 1) := if_pos hprime.one_lt.le
  have hmul : Word.mul 64 (p.prime ^ (p.exponent - 1)) (p.prime - 1) = .ok p.units :=
    Word.mul_of_lt ((PrimePower.units_le_value hexponent).trans_lt hvalue)
  unfold Factorization.unitCount
  rw [hsub, hunits]
  change (do let power ← Word.pow 64 p.prime (p.exponent - 1); Word.mul 64 power _) = _
  rw [h.pow_pred_eq hn hp]
  exact hmul

theorem totient_eq (h : IsPrimeFactorization n factors) (hn : n < Nat.pow 2 64) :
    Factorization.totient factors = .ok (factors.map PrimePower.units).prod := by
  rw [Factorization.totient, mapM_eq_ok_map fun p hp => h.unitCount_eq hn hp]
  exact h.product_of_le hn (fun p hp => PrimePower.units_pos (h.prime p hp))
    (fun p hp => PrimePower.units_le_value (h.exponent_pos p hp))

theorem radical_eq (h : IsPrimeFactorization n factors) (hn : n < Nat.pow 2 64) :
    Factorization.radical factors = .ok (factors.map PrimePower.prime).prod :=
  h.product_of_le hn (fun p hp => (h.prime p hp).pos)
    (fun p hp => PrimePower.prime_le_value (h.prime p hp) (h.exponent_pos p hp))

theorem divisorCount_eq (h : IsPrimeFactorization n factors) (hn : n < Nat.pow 2 64) :
    Factorization.divisorCount factors = .ok (factors.map fun p => p.exponent + 1).prod :=
  h.product_of_le hn (fun _ _ => Nat.succ_pos _)
    (fun p hp => PrimePower.exponent_lt_value (h.prime p hp))

theorem divisorSumOf_eq (h : IsPrimeFactorization n factors) (hn : n < Nat.pow 2 64)
    (hp : p ∈ factors) : Factorization.divisorSumOf p = .ok p.divisorSum := by
  have hprime := h.prime p hp
  have hsub : Word.sub (p.prime ^ (p.exponent + 1)) 1 = .ok (p.prime ^ (p.exponent + 1) - 1) :=
    if_pos (Nat.pow_pos hprime.pos)
  have hunits : Word.sub p.prime 1 = .ok (p.prime - 1) := if_pos hprime.one_lt.le
  have hdiv : Word.div (p.prime ^ (p.exponent + 1) - 1) (p.prime - 1) = .ok p.divisorSum :=
    if_neg (Nat.sub_pos_of_lt hprime.one_lt).ne'
  unfold Factorization.divisorSumOf
  rw [h.pow_succ_eq hn hp, hunits]
  change (do let above ← Word.sub _ 1; Word.div above _) = _
  rw [hsub]
  exact hdiv

/-- The sums of divisors of the prime powers multiply to at most the square of the number. -/
theorem prod_divisorSum_lt (h : IsPrimeFactorization n factors) (hn : n < Nat.pow 2 64) :
    (factors.map PrimePower.divisorSum).prod < Nat.pow 2 128 := by
  calc (factors.map PrimePower.divisorSum).prod
      ≤ (factors.map fun p => p.value * p.value).prod :=
        List.prod_map_le_prod_map₀ _ _ (fun _ _ => Nat.zero_le _)
          (fun p hp => PrimePower.divisorSum_le (h.prime p hp) (h.exponent_pos p hp))
    _ = n * n := by rw [List.prod_map_mul, h.product]
    _ < Nat.pow 2 64 * Nat.pow 2 64 := Nat.mul_lt_mul'' hn hn
    _ = Nat.pow 2 128 := by decide

theorem divisorSum_eq (h : IsPrimeFactorization n factors) (hn : n < Nat.pow 2 64) :
    Factorization.divisorSum factors = .ok (factors.map PrimePower.divisorSum).prod := by
  rw [Factorization.divisorSum, mapM_eq_ok_map fun p hp => h.divisorSumOf_eq hn hp]
  apply Word.product_of_lt
  · exact List.forall_mem_map.2 fun p hp => PrimePower.divisorSum_pos (h.prime p hp)
  · exact h.prod_divisorSum_lt hn

theorem unitExponent_eq (h : IsPrimeFactorization n factors) (hn : n < Nat.pow 2 64)
    (hp : p ∈ factors) : Factorization.unitExponent p = .ok p.unitExponent := by
  have hprime := h.prime p hp
  have hexponent := h.exponent_pos p hp
  unfold Factorization.unitExponent PrimePower.unitExponent
  by_cases htwo : p.prime = 2
  · by_cases hone : p.exponent = 1
    · simp [htwo, hone, PrimePower.units]
    · by_cases hsquare : p.exponent = 2
      · simp [htwo, hsquare, PrimePower.units]
      · have hsub : Word.sub p.exponent 2 = .ok (p.exponent - 2) := if_pos (by omega)
        have hle : 2 ^ (p.exponent - 2) ≤ p.value := by
          rw [← htwo]
          exact PrimePower.pow_le_value hprime (Nat.sub_le _ _)
        have hpow : Word.pow 64 2 (p.exponent - 2) = .ok (2 ^ (p.exponent - 2)) :=
          Word.pow_of_lt Nat.two_pos (hle.trans_lt ((h.value_le hp).trans_lt hn))
        rw [if_neg (by omega), if_neg (by omega), if_pos htwo, if_pos (by omega), hsub]
        exact hpow
  · rw [if_neg (by omega), if_neg (by omega), if_neg htwo, if_neg (by omega)]
    exact h.unitCount_eq hn hp

/-- The exponent of the group of units exists and is positive. -/
theorem groupExponent_eq (h : IsPrimeFactorization n factors) (hn : n < Nat.pow 2 64) :
    Factorization.groupExponent factors =
        .ok ((factors.map PrimePower.unitExponent).foldl Nat.lcm 1) ∧
      0 < (factors.map PrimePower.unitExponent).foldl Nat.lcm 1 := by
  rw [Factorization.groupExponent, mapM_eq_ok_map fun p hp => h.unitExponent_eq hn hp]
  have hpos : ∀ exponent ∈ factors.map PrimePower.unitExponent, 0 < exponent :=
    List.forall_mem_map.2 fun p hp => PrimePower.unitExponent_pos (h.prime p hp)
  have hlt : (factors.map PrimePower.unitExponent).prod < Nat.pow 2 64 :=
    (h.prod_le fun p hp =>
      PrimePower.unitExponent_le_value (h.prime p hp) (h.exponent_pos p hp)).trans_lt hn
  generalize factors.map PrimePower.unitExponent = exponents at hpos hlt
  cases exponents with
  | nil => exact ⟨rfl, Nat.one_pos⟩
  | cons first rest =>
      rw [List.forall_mem_cons] at hpos
      rw [List.prod_cons] at hlt
      rw [List.foldl_cons, Nat.lcm_one_left]
      exact Integer.foldlM_lcmPair_of_lt hpos.1 hpos.2 hlt

end IsPrimeFactorization

namespace Factoring

/-- A prime can be taken out of an exponent as often as it stays one, modulo a 64-bit number. -/
theorem exists_stripPrime {a m prime : ℕ} (hm : 0 < m) (hword : m ≤ Nat.pow 2 64)
    (hprime : prime ≠ 0) (exponent : ℕ) :
    ∃ order, stripPrime a m prime exponent = .ok order := by
  induction exponent using Nat.strongRecOn with
  | ind exponent ih =>
      rw [stripPrime, if_neg hprime]
      by_cases hdivides : exponent % prime = 0 ∧ exponent / prime < exponent
      · rw [dif_pos hdivides, Integer.powMod_of_le hm hword]
        by_cases hone : a ^ (exponent / prime) % m = 1
        · obtain ⟨order, horder⟩ := ih _ hdivides.2
          exact ⟨order, (if_pos hone).trans horder⟩
        · exact ⟨exponent, if_neg hone⟩
      · exact ⟨exponent, dif_neg hdivides⟩

theorem exists_stripPrimes {a m n : ℕ} {factors : Factorization} (hm : 0 < m)
    (hword : m ≤ Nat.pow 2 64) (h : IsPrimeFactorization n factors) (exponent : ℕ) :
    ∃ order, stripPrimes a m factors exponent = .ok order :=
  exists_foldlM_eq_ok
    (fun p hp exponent => exists_stripPrime hm hword (h.prime p hp).ne_zero exponent) exponent

end Factoring

end ExactAlgebra
