import ExactAlgebra.Integer.Lists
import ExactAlgebra.Integer.ModularPower
import ExactAlgebra.Proofs.Power
import Mathlib.Algebra.Order.BigOperators.GroupWithZero.List
import Mathlib.Algebra.Order.Ring.Nat
import Mathlib.Data.Nat.GCD.Basic
import Mathlib.Data.Nat.ModEq

/-!
Arithmetic in words is exact as long as the result fits: whatever is multiplied on the way to a
power, a product or a least common multiple of positive numbers is not larger than the result, or
than the product of all of them.
-/

namespace ExactAlgebra

namespace Word

variable {bits : ℕ}

theorem mul_of_lt {a b : ℕ} (h : a * b < Nat.pow 2 bits) : mul bits a b = .ok (a * b) :=
  fit_of_lt h

theorem lt_of_mul {a b result : ℕ} (h : mul bits a b = .ok result) : a * b < Nat.pow 2 bits := by
  by_contra hlarge
  rw [mul, fit, if_neg hlarge] at h
  cases h

theorem multipliesAs_mul (bits : ℕ) : MultipliesAs (mul bits) (fun n m : ℕ => n = m) := by
  rintro a b c x y rfl rfl h
  exact eq_of_fit h

/-- A power of a positive number that fits is computed exactly. -/
theorem pow_of_lt {base exponent : ℕ} (hbase : 0 < base)
    (h : base ^ exponent < Nat.pow 2 bits) : pow bits base exponent = .ok (base ^ exponent) := by
  let Fits : ℕ → ℕ → ℕ → Prop := fun result base exponent =>
    0 < result ∧ 0 < base ∧ result * base ^ exponent < Nat.pow 2 bits
  have hfits : Fits 1 base exponent := ⟨Nat.one_pos, hbase, by rwa [one_mul]⟩
  have hexists : ∃ power, pow bits base exponent = .ok power := by
    refine exists_powerBy ?_ hfits
    rintro result base exponent - ⟨hresult, hbase, hlt⟩
    have hsplit := pow_mod_two_mul_pow_div_two base exponent
    have hrest : 0 < (base * base) ^ (exponent / 2) := Nat.pow_pos (Nat.mul_pos hbase hbase)
    have hnextPos : 0 < result * base ^ (exponent % 2) := Nat.mul_pos hresult (Nat.pow_pos hbase)
    have hwhole : result * base ^ (exponent % 2) * (base * base) ^ (exponent / 2) <
        Nat.pow 2 bits := by
      rwa [mul_assoc, hsplit]
    have hnext : result * base ^ (exponent % 2) < Nat.pow 2 bits :=
      (Nat.le_mul_of_pos_right _ hrest).trans_lt hwhole
    refine ⟨result * base ^ (exponent % 2), ?_, ?_⟩
    · rcases Nat.mod_two_eq_zero_or_one exponent with heven | hodd
      · rw [mulIfOdd, if_neg (by omega), heven, pow_zero, mul_one]
      · rw [hodd, pow_one] at hnext ⊢
        rw [mulIfOdd, if_pos hodd, mul_of_lt hnext]
    · intro hmore
      have hsquare : base * base < Nat.pow 2 bits := by
        calc base * base ≤ (base * base) ^ (exponent / 2) := Nat.le_self_pow hmore _
          _ ≤ result * base ^ (exponent % 2) * (base * base) ^ (exponent / 2) :=
            Nat.le_mul_of_pos_left _ hnextPos
          _ < Nat.pow 2 bits := hwhole
      exact ⟨base * base, mul_of_lt hsquare, hnextPos, Nat.mul_pos hbase hbase, hwhole⟩
  obtain ⟨power, hpower⟩ := hexists
  have hvalue : power = 1 * base ^ exponent := (multipliesAs_mul bits).powerBy rfl rfl hpower
  rw [hpower, hvalue, one_mul]

/-- Every product that is formed on the way to a power fits when the power has a value. -/
theorem mul_lt_of_asksFor {base exponent power a b : ℕ} (h : pow bits base exponent = .ok power)
    (hasks : AsksFor (mul bits) 1 base exponent a b) : a * b < Nat.pow 2 bits := by
  obtain ⟨_, hproduct⟩ := exists_mul_of_asksFor h hasks
  exact lt_of_mul hproduct

theorem foldlM_mul_of_lt {start : ℕ} {factors : List ℕ} (hpos : ∀ n ∈ factors, 0 < n)
    (h : start * factors.prod < Nat.pow 2 bits) :
    factors.foldlM (mul bits) start = .ok (start * factors.prod) := by
  induction factors generalizing start with
  | nil => rw [List.prod_nil, mul_one]; rfl
  | cons n rest ih =>
      rw [List.forall_mem_cons] at hpos
      rw [List.prod_cons, ← mul_assoc] at h ⊢
      have hrest : 0 < rest.prod := List.prod_pos hpos.2
      have hfirst : start * n < Nat.pow 2 bits := (Nat.le_mul_of_pos_right _ hrest).trans_lt h
      rw [List.foldlM_cons, mul_of_lt hfirst]
      exact ih hpos.2 h

/-- A product of positive numbers that fits is computed exactly. -/
theorem product_of_lt {factors : List ℕ} (hpos : ∀ n ∈ factors, 0 < n)
    (h : factors.prod < Nat.pow 2 bits) : product bits factors = .ok factors.prod := by
  have hone : 1 * factors.prod < Nat.pow 2 bits := by rwa [one_mul]
  have hfold : factors.foldlM (mul bits) 1 = .ok (1 * factors.prod) := foldlM_mul_of_lt hpos hone
  rwa [one_mul] at hfold

/-- The products of the numbers so far fit when the product of all of them does. -/
theorem prod_lt_of_isPrefix {factors first : List ℕ} {limit : ℕ} (hpos : ∀ n ∈ factors, 0 < n)
    (h : factors.prod < limit) (hfirst : first <+: factors) : first.prod < limit := by
  obtain ⟨rest, rfl⟩ := hfirst
  rw [List.prod_append] at h
  have hrest : 0 < rest.prod := List.prod_pos fun n hn => hpos n (List.mem_append_right first hn)
  exact (Nat.le_mul_of_pos_right _ hrest).trans_lt h

end Word

namespace Integer

theorem lcmPair_of_lt {a b : ℕ} (ha : 0 < a) (hb : 0 < b) (h : Nat.lcm a b < Nat.pow 2 64) :
    lcmPair a b = .ok (Nat.lcm a b) := by
  have hlcm : a / Nat.gcd a b * b = Nat.lcm a b := Nat.div_mul_right_comm (Nat.gcd_dvd_left a b) b
  have hmul : Word.mul 64 (a / Nat.gcd a b) b = .ok (Nat.lcm a b) := by
    rw [Word.mul_of_lt (by rwa [hlcm]), hlcm]
  rw [lcmPair, if_neg (by omega), hmul]

/-- The least common multiple of positive numbers is not larger than their product, so it fits
whenever the product does. -/
theorem foldlM_lcmPair_of_lt {first : ℕ} {rest : List ℕ} (hfirst : 0 < first)
    (hpos : ∀ n ∈ rest, 0 < n) (h : first * rest.prod < Nat.pow 2 64) :
    rest.foldlM lcmPair first = .ok (rest.foldl Nat.lcm first) ∧
      0 < rest.foldl Nat.lcm first := by
  induction rest generalizing first with
  | nil => exact ⟨rfl, hfirst⟩
  | cons n rest ih =>
      rw [List.forall_mem_cons] at hpos
      rw [List.prod_cons, ← mul_assoc] at h
      have hrest : 0 < rest.prod := List.prod_pos hpos.2
      have hle : Nat.lcm first n ≤ first * n :=
        Nat.le_of_dvd (Nat.mul_pos hfirst hpos.1) (Nat.lcm_dvd_mul first n)
      have hlcm : Nat.lcm first n * rest.prod < Nat.pow 2 64 :=
        (Nat.mul_le_mul_right _ hle).trans_lt h
      have hpair : lcmPair first n = .ok (Nat.lcm first n) :=
        lcmPair_of_lt hfirst hpos.1 ((Nat.le_mul_of_pos_right _ hrest).trans_lt hlcm)
      rw [List.foldlM_cons, hpair, List.foldl_cons]
      exact ih (Nat.lcm_pos hfirst hpos.1) hpos.2 hlcm

/-- The product of two residues has at most twice as many bits as the modulus. -/
theorem mul_lt_of_residues {modulus a b : ℕ} (hmodulus : modulus ≤ Nat.pow 2 64)
    (ha : a < modulus) (hb : b < modulus) : a * b < Nat.pow 2 128 := by
  calc a * b < modulus * modulus := Nat.mul_lt_mul'' ha hb
    _ ≤ Nat.pow 2 64 * Nat.pow 2 64 := Nat.mul_le_mul hmodulus hmodulus
    _ = Nat.pow 2 128 := by decide

theorem mulMod_of_lt {modulus a b : ℕ} (hmodulus : modulus ≤ Nat.pow 2 64) (ha : a < modulus)
    (hb : b < modulus) : mulMod modulus a b = .ok (a * b % modulus) := by
  rw [mulMod, Word.mul_of_lt (mul_lt_of_residues hmodulus ha hb)]
  rfl

/-- The loop keeps the residue of the result times the power that is still to come. -/
theorem powModFrom_of_lt {modulus result base exponent : ℕ} (hmodulus : modulus ≤ Nat.pow 2 64)
    (hresult : result < modulus) (hbase : base < modulus) :
    powModFrom modulus result base exponent = .ok (result * base ^ exponent % modulus) := by
  induction exponent using Nat.strongRecOn generalizing result base with
  | ind exponent ih =>
      rw [powModFrom]
      by_cases hzero : exponent = 0
      · rw [dif_pos hzero, hzero, pow_zero, mul_one, Nat.mod_eq_of_lt hresult]
      · have hpos : 0 < modulus := Nat.zero_lt_of_lt hresult
        have hnext : mulIfOdd (mulMod modulus) result base exponent =
            .ok (result * base ^ (exponent % 2) % modulus) := by
          rcases Nat.mod_two_eq_zero_or_one exponent with heven | hodd
          · rw [mulIfOdd, if_neg (by omega), heven, pow_zero, mul_one, Nat.mod_eq_of_lt hresult]
          · rw [mulIfOdd, if_pos hodd, mulMod_of_lt hmodulus hresult hbase, hodd, pow_one]
        have hhalf : exponent / 2 < exponent :=
          Nat.div_lt_self (Nat.pos_of_ne_zero hzero) (by decide)
        have hresidue :
            result * base ^ (exponent % 2) % modulus * (base * base % modulus) ^ (exponent / 2) ≡
              result * base ^ exponent [MOD modulus] := by
          calc result * base ^ (exponent % 2) % modulus * (base * base % modulus) ^ (exponent / 2)
              ≡ result * base ^ (exponent % 2) * (base * base) ^ (exponent / 2) [MOD modulus] :=
                (Nat.mod_modEq _ _).mul ((Nat.mod_modEq _ _).pow _)
            _ = result * base ^ exponent := by rw [mul_assoc, pow_mod_two_mul_pow_div_two]
        rw [dif_neg hzero, hnext, mulMod_of_lt hmodulus hbase hbase]
        exact (ih _ hhalf (Nat.mod_lt _ hpos) (Nat.mod_lt _ hpos)).trans
          (congrArg Except.ok hresidue)

/-- A power modulo a positive 64-bit number is computed exactly. -/
theorem powMod_of_le {base exponent modulus : ℕ} (hpos : 0 < modulus)
    (hmodulus : modulus ≤ Nat.pow 2 64) :
    powMod base exponent modulus = .ok (base ^ exponent % modulus) := by
  have hresidue : 1 % modulus * (base % modulus) ^ exponent ≡ 1 * base ^ exponent [MOD modulus] :=
    (Nat.mod_modEq _ _).mul ((Nat.mod_modEq _ _).pow _)
  rw [one_mul] at hresidue
  rw [powMod, if_neg hpos.ne',
    powModFrom_of_lt hmodulus (Nat.mod_lt _ hpos) (Nat.mod_lt _ hpos)]
  exact congrArg Except.ok hresidue

end Integer

end ExactAlgebra
