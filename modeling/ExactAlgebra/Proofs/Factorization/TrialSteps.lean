import ExactAlgebra.Proofs.Factorization.TrialDivision
import ExactAlgebra.Word

/-!
Trial division in words, one step after the other. The number that is left and the divisor are words
of 64 bits, and the exponent that is counted is one of 32 bits. A divisor is only advanced while its
square is at most the number that is left, and every division by it at least halves that number, so
neither the divisor nor the exponent leaves its word. The steps end in the prime factorization.
-/

namespace ExactAlgebra

def Word.mod (a b : ℕ) : Except Error ℕ :=
  if b = 0 then .error .wordRange else .ok (a % b)

/-- Where a trial division stands: a divisor is compared with its quotient, a divisor is divided out
and counted, or all prime powers are found. -/
inductive TrialDivision where
  | trying (rest divisor : ℕ) (found : Factorization)
  | counting (rest divisor exponent : ℕ) (found : Factorization)
  | finished (found : Factorization)

namespace TrialDivision

def start (n : ℕ) : TrialDivision := trying n 2 []

/-- The next divisor, if it is a word. -/
def advance (rest divisor : ℕ) (found : Factorization) : Except Error TrialDivision := do
  let next ← Word.fit 64 (nextDivisor divisor)
  return trying rest next found

/-- One step. It fails if a result does not fit in its word or a divisor is zero. -/
def step : TrialDivision → Except Error TrialDivision
  | trying rest divisor found => do
      let quotient ← Word.div rest divisor
      if divisor ≤ quotient then do
        let residue ← Word.mod rest divisor
        if residue = 0 then return counting rest divisor 0 found
        else advance rest divisor found
      else return finished (found ++ if 1 < rest then [⟨rest, 1⟩] else [])
  | counting rest divisor exponent found => do
      let residue ← Word.mod rest divisor
      if residue = 0 then do
        let quotient ← Word.div rest divisor
        let count ← Word.fit 32 (exponent + 1)
        return counting quotient divisor count found
      else advance rest divisor (found ++ [⟨divisor, exponent⟩])
  | finished found => return finished found

/-- No step from this stage on fails, and after some steps the factorization is found. -/
inductive EndsIn : TrialDivision → Factorization → Prop
  | finished (found : Factorization) : EndsIn (finished found) found
  | next {stage later : TrialDivision} {factors : Factorization} (hstep : stage.step = .ok later)
      (hrest : EndsIn later factors) : EndsIn stage factors

theorem EndsIn.eq_found {found factors : Factorization} (h : EndsIn (.finished found) factors) :
    factors = found := by
  -- The stage is an index of the relation, so it has to be a variable for the induction.
  generalize hstage : TrialDivision.finished found = stage at h
  induction h with
  | finished => cases hstage; rfl
  | next hstep hrest ih =>
      subst hstage
      exact ih (Except.ok.inj hstep)

/-- The steps from one stage lead to one factorization. -/
theorem EndsIn.unique {stage : TrialDivision} {factors others : Factorization}
    (h : EndsIn stage factors) (hothers : EndsIn stage others) : factors = others := by
  induction h with
  | finished found => exact hothers.eq_found.symm
  | next hstep hrest ih =>
      cases hothers with
      | finished found => exact (EndsIn.next hstep hrest).eq_found
      | next hstep' hrest' =>
          rw [hstep] at hstep'
          cases hstep'
          exact ih hrest'

section Steps

variable {rest divisor exponent : ℕ} {found : Factorization}

theorem advance_eq_ok (h : nextDivisor divisor < Nat.pow 2 64) :
    advance rest divisor found = .ok (trying rest (nextDivisor divisor) found) := by
  rw [advance, Word.fit_of_lt h]
  rfl

theorem step_trying (hdivisor : 1 < divisor) :
    (trying rest divisor found).step =
      if divisor ≤ rest / divisor then
        if rest % divisor = 0 then .ok (counting rest divisor 0 found)
        else advance rest divisor found
      else .ok (finished (found ++ if 1 < rest then [⟨rest, 1⟩] else [])) := by
  have hne : divisor ≠ 0 := by omega
  rw [step, Word.div, Word.mod, if_neg hne, if_neg hne]
  rfl

theorem step_counting (hdivisor : 1 < divisor) (hexponent : exponent + 1 < Nat.pow 2 32) :
    (counting rest divisor exponent found).step =
      if rest % divisor = 0 then .ok (counting (rest / divisor) divisor (exponent + 1) found)
      else advance rest divisor (found ++ [⟨divisor, exponent⟩]) := by
  have hne : divisor ≠ 0 := by omega
  rw [step, Word.div, Word.mod, if_neg hne, if_neg hne, Word.fit_of_lt hexponent]
  rfl

/-- A divisor that is not above its quotient has half as many bits as the number. -/
theorem nextDivisor_lt (hrest : rest < Nat.pow 2 64) (hdivisor : 1 < divisor)
    (h : divisor ≤ rest / divisor) : nextDivisor divisor < Nat.pow 2 64 := by
  have hsquare : divisor * divisor ≤ rest := (Nat.le_div_iff_mul_le (by omega)).1 h
  have hhalf : divisor < 2 ^ 32 := by
    by_contra hlarge
    have hlargeSquare := Nat.mul_le_mul (Nat.le_of_not_lt hlarge) (Nat.le_of_not_lt hlarge)
    change rest < 2 ^ 64 at hrest
    omega
  have hbound : nextDivisor divisor ≤ divisor + 2 := by
    unfold nextDivisor
    split <;> omega
  change _ < 2 ^ 64
  omega

/-- A power that divides a word has an exponent below the number of its bits. -/
theorem exponent_lt (hdivisor : 1 < divisor) (hrest : 0 < rest)
    (h : divisor ^ exponent * rest < Nat.pow 2 64) : exponent + 1 < Nat.pow 2 32 := by
  have hpow : 2 ^ exponent < 2 ^ 64 := by
    calc 2 ^ exponent ≤ divisor ^ exponent := Nat.pow_le_pow_left hdivisor exponent
      _ ≤ divisor ^ exponent * rest := Nat.le_mul_of_pos_right _ hrest
      _ < 2 ^ 64 := h
  have hlt : exponent < 64 := (Nat.pow_lt_pow_iff_right (by decide)).1 hpow
  change _ < 2 ^ 32
  omega

/-- Dividing a divisor out ends with the number of times that it divides. The power that was counted
times what is left stays the same, which bounds the exponent. -/
theorem EndsIn.counting {factors : Factorization} (hdivisor : 1 < divisor) (hrest : 0 < rest)
    (hnext : nextDivisor divisor < Nat.pow 2 64)
    (hword : divisor ^ exponent * rest < Nat.pow 2 64)
    (h : EndsIn (.trying (Integer.divideOut divisor rest).2 (nextDivisor divisor)
      (found ++ [⟨divisor, exponent + (Integer.divideOut divisor rest).1⟩])) factors) :
    EndsIn (.counting rest divisor exponent found) factors := by
  induction rest using Nat.strongRecOn generalizing exponent with
  | ind rest ih =>
      have hexponent := exponent_lt hdivisor hrest hword
      by_cases hmod : rest % divisor = 0
      · have hmul : rest / divisor * divisor = rest :=
          Nat.div_mul_cancel (Nat.dvd_of_mod_eq_zero hmod)
        have hquotient : 0 < rest / divisor := Nat.pos_of_mul_pos_right (hmul ▸ hrest)
        have hsame : divisor ^ (exponent + 1) * (rest / divisor) < Nat.pow 2 64 := by
          rwa [pow_succ, mul_assoc, mul_comm divisor, hmul]
        rw [Integer.divideOut_of_dvd hdivisor hrest hmod, add_comm _ 1, ← add_assoc] at h
        refine .next (by rw [step_counting hdivisor hexponent, if_pos hmod]) ?_
        exact ih _ (Nat.div_lt_self hrest hdivisor) hquotient hsame h
      · rw [Integer.divideOut_of_not_dvd hmod] at h
        refine .next ?_ h
        rw [step_counting hdivisor hexponent, if_neg hmod, advance_eq_ok hnext, add_zero]

/-- From any divisor on, the steps add the factors of what is left to those that were found. -/
theorem endsIn_factorsFrom (hdivisor : 1 < divisor) (hrest : 0 < rest)
    (hword : rest < Nat.pow 2 64) (found : Factorization) :
    EndsIn (.trying rest divisor found) (found ++ factorsFrom divisor rest) := by
  -- The cases are those of the loop: the divisor is divided out, passed over, or too large. What
  -- is left only falls, so it stays a word.
  fun_induction factorsFrom divisor rest generalizing found with
  | case1 divisor rest hcontinue hmod ih =>
      have hlast := Integer.divideOut_snd_le (d := divisor) hrest
      have hnext := nextDivisor_lt hword hdivisor hcontinue.2
      refine .next (by rw [step_trying hdivisor, if_pos hcontinue.2, if_pos hmod]) ?_
      refine .counting hdivisor hrest hnext (by rwa [pow_zero, one_mul]) ?_
      have hends := ih (hdivisor.trans (lt_nextDivisor divisor))
        (Integer.divideOut_snd_pos hrest) (hlast.trans_lt hword)
        (found ++ [⟨divisor, (Integer.divideOut divisor rest).1⟩])
      rw [List.append_assoc, List.singleton_append] at hends
      rwa [zero_add]
  | case2 divisor rest hcontinue hmod ih =>
      have hnext := nextDivisor_lt hword hdivisor hcontinue.2
      have hstep : (trying rest divisor found).step =
          .ok (trying rest (nextDivisor divisor) found) := by
        rw [step_trying hdivisor, if_pos hcontinue.2, if_neg hmod, advance_eq_ok hnext]
      exact .next hstep (ih (hdivisor.trans (lt_nextDivisor divisor)) hrest hword found)
  | case3 divisor rest hstop hlarge =>
      have hless : ¬ divisor ≤ rest / divisor := fun hle => hstop ⟨hdivisor, hle⟩
      refine .next ?_ (.finished _)
      rw [step_trying hdivisor, if_neg hless, if_pos hlarge]
  | case4 divisor rest hstop hsmall =>
      have hless : ¬ divisor ≤ rest / divisor := fun hle => hstop ⟨hdivisor, hle⟩
      refine .next ?_ (.finished _)
      rw [step_trying hdivisor, if_neg hless, if_neg hsmall]

end Steps

/-- Trial division in words ends, and in nothing but the factorization. -/
theorem endsIn_start_iff {n : ℕ} (hn : 0 < n) (hword : n < Nat.pow 2 64)
    {factors : Factorization} : EndsIn (start n) factors ↔ factors = trialDivision n := by
  have hends : EndsIn (start n) (trialDivision n) := endsIn_factorsFrom (by decide) hn hword []
  constructor
  · intro h
    exact h.unique hends
  · rintro rfl
    exact hends

/-- Trial division of a positive word. In words of 64 bits, with exponents of 32 bits, the steps end
without an overflow, and what they find is the list of trial division. That list is a prime
factorization of the number and there is no other; only one has the empty list. -/
theorem endsIn_unique_primeFactorization {n : UInt64} (hn : 0 < n.toNat) :
    (∀ factors, EndsIn (start n.toNat) factors ↔ factors = trialDivision n.toNat) ∧
    IsPrimeFactorization n.toNat (trialDivision n.toNat) ∧
    (∀ others, IsPrimeFactorization n.toNat others → others = trialDivision n.toNat) ∧
    (trialDivision n.toNat = [] ↔ n.toNat = 1) := by
  have hfactors := isPrimeFactorization_trialDivision hn
  refine ⟨fun factors => endsIn_start_iff hn n.toNat_lt, hfactors,
    fun others hothers => hothers.unique hfactors, ?_⟩
  constructor
  · intro hnil
    rw [← hfactors.product, hnil, List.map_nil, List.prod_nil]
  · intro hone
    rw [hone] at hfactors ⊢
    exact hfactors.unique .nil

/-- The last factor of the largest word is what is left when the divisors before it are out. -/
theorem endsIn_unique_primeFactorization_largestWord :
    0 < (18446744073709551615 : UInt64).toNat ∧
      EndsIn (start 18446744073709551615)
        [⟨3, 1⟩, ⟨5, 1⟩, ⟨17, 1⟩, ⟨257, 1⟩, ⟨641, 1⟩, ⟨65537, 1⟩, ⟨6700417, 1⟩] := by
  have hpos : 0 < (18446744073709551615 : UInt64).toNat := by decide
  obtain ⟨hends, _, hunique, _⟩ := endsIn_unique_primeFactorization hpos
  exact ⟨hpos, (hends _).2 (hunique _ isPrimeFactorization_largestWord)⟩

end TrialDivision

end ExactAlgebra
