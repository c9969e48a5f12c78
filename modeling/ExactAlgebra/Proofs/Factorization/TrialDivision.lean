import ExactAlgebra.Factorization.Basic
import Mathlib.Algebra.Order.BigOperators.GroupWithZero.List
import Mathlib.Data.Nat.Factorization.Basic
import Mathlib.Tactic.NormNum.Prime

/-!
Trial division finds the prime factorization of every positive number. The loop keeps the number
free of primes below the divisor that is tried next, so a divisor that divides is a prime, and a
rest that is smaller than the square of the divisor is one or a prime. A number has only one prime
factorization, so a factorization can be recognized without looking at how it was found.
-/

namespace ExactAlgebra

/-- The number that a prime power stands for. -/
def PrimePower.value (p : PrimePower) : ℕ := p.prime ^ p.exponent

/-- The list holds powers of distinct primes by ascending prime, and they multiply to the number. -/
structure IsPrimeFactorization (n : ℕ) (factors : Factorization) : Prop where
  ascending : factors.Pairwise (fun p q => p.prime < q.prime)
  prime : ∀ p ∈ factors, p.prime.Prime
  exponent_pos : ∀ p ∈ factors, 0 < p.exponent
  product : (factors.map PrimePower.value).prod = n

namespace IsPrimeFactorization

variable {n : ℕ} {p : PrimePower} {factors others : Factorization}

theorem pos (h : IsPrimeFactorization n factors) : 0 < n := by
  rw [← h.product]
  apply List.prod_pos
  intro value hvalue
  obtain ⟨p, hp, rfl⟩ := List.mem_map.1 hvalue
  exact Nat.pow_pos (h.prime p hp).pos

theorem dvd_of_mem (h : IsPrimeFactorization n factors) (hp : p ∈ factors) : p.prime ∣ n := by
  have hvalue : p.value ∣ n := h.product ▸ List.dvd_prod (List.mem_map_of_mem hp)
  exact (dvd_pow_self p.prime (h.exponent_pos p hp).ne').trans hvalue

/-- Every prime that divides the number is listed. -/
theorem exists_mem_of_dvd (h : IsPrimeFactorization n factors) {prime : ℕ} (hprime : prime.Prime)
    (hdvd : prime ∣ n) : ∃ p ∈ factors, p.prime = prime := by
  rw [← h.product, hprime.prime.dvd_prod_iff] at hdvd
  obtain ⟨value, hvalue, hdvd⟩ := hdvd
  obtain ⟨p, hp, rfl⟩ := List.mem_map.1 hvalue
  have hbase : prime ∣ p.prime := hprime.dvd_of_dvd_pow hdvd
  exact ⟨p, hp, ((Nat.prime_dvd_prime_iff_eq hprime (h.prime p hp)).1 hbase).symm⟩

theorem nil : IsPrimeFactorization 1 [] :=
  ⟨.nil, by simp, by simp, rfl⟩

theorem singleton (hprime : n.Prime) : IsPrimeFactorization n [⟨n, 1⟩] :=
  ⟨by simp, by simpa using hprime, by simp, by simp [PrimePower.value]⟩

/-- A power of a prime goes in front of a factorization with larger primes. -/
theorem cons (h : IsPrimeFactorization n factors) (hprime : p.prime.Prime)
    (hexponent : 0 < p.exponent) (hlt : ∀ q ∈ factors, p.prime < q.prime) :
    IsPrimeFactorization (p.value * n) (p :: factors) where
  ascending := List.pairwise_cons.2 ⟨hlt, h.ascending⟩
  prime := List.forall_mem_cons.2 ⟨hprime, h.prime⟩
  exponent_pos := List.forall_mem_cons.2 ⟨hexponent, h.exponent_pos⟩
  product := by rw [List.map_cons, List.prod_cons, h.product]

theorem tail (h : IsPrimeFactorization n (p :: factors)) :
    IsPrimeFactorization (factors.map PrimePower.value).prod factors where
  ascending := (List.pairwise_cons.1 h.ascending).2
  prime := (List.forall_mem_cons.1 h.prime).2
  exponent_pos := (List.forall_mem_cons.1 h.exponent_pos).2
  product := rfl

/-- The exponent of a listed prime is the number of times that it divides. -/
theorem factorization_eq (h : IsPrimeFactorization n factors) (hp : p ∈ factors) :
    n.factorization p.prime = p.exponent := by
  induction factors generalizing n with
  | nil => cases hp
  | cons q rest ih =>
      have hq : q.prime.Prime := h.prime q List.mem_cons_self
      have hlt : ∀ r ∈ rest, q.prime < r.prime := (List.pairwise_cons.1 h.ascending).1
      have hproduct : n = q.value * (rest.map PrimePower.value).prod := by
        rw [← h.product, List.map_cons, List.prod_cons]
      rw [hproduct, PrimePower.value,
        Nat.factorization_mul (Nat.pow_pos hq.pos).ne' h.tail.pos.ne', Finsupp.add_apply,
        hq.factorization_pow]
      rcases List.mem_cons.1 hp with rfl | hrest
      · have hnot : ¬ p.prime ∣ (rest.map PrimePower.value).prod := by
          intro hdvd
          obtain ⟨r, hr, heq⟩ := h.tail.exists_mem_of_dvd hq hdvd
          exact (hlt r hr).ne' heq
        rw [Finsupp.single_eq_same, Nat.factorization_eq_zero_of_not_dvd hnot, add_zero]
      · rw [Finsupp.single_eq_of_ne (hlt p hrest).ne', ih h.tail hrest, zero_add]

theorem nodup (h : IsPrimeFactorization n factors) : factors.Nodup :=
  h.ascending.imp fun hlt heq => hlt.ne (congrArg PrimePower.prime heq)

theorem subset (h : IsPrimeFactorization n factors) (hothers : IsPrimeFactorization n others) :
    factors ⊆ others := by
  intro p hp
  obtain ⟨q, hq, hprime⟩ := hothers.exists_mem_of_dvd (h.prime p hp) (h.dvd_of_mem hp)
  have hexponent : q.exponent = p.exponent := by
    rw [← hothers.factorization_eq hq, hprime, h.factorization_eq hp]
  have hsame : q = p := by
    cases q
    cases p
    simp_all
  exact hsame ▸ hq

/-- A number has one prime factorization. -/
theorem unique (h : IsPrimeFactorization n factors) (hothers : IsPrimeFactorization n others) :
    factors = others := by
  have hperm : factors.Perm others := (List.perm_ext_iff_of_nodup h.nodup hothers.nodup).2
    fun _ => ⟨fun hp => h.subset hothers hp, fun hp => hothers.subset h hp⟩
  exact hperm.eq_of_pairwise (fun _ _ _ _ hlt hgt => absurd hgt hlt.asymm) h.ascending
    hothers.ascending

end IsPrimeFactorization

/-- The largest word of 64 bits is a product of seven primes. -/
theorem isPrimeFactorization_largestWord :
    IsPrimeFactorization 18446744073709551615
      [⟨3, 1⟩, ⟨5, 1⟩, ⟨17, 1⟩, ⟨257, 1⟩, ⟨641, 1⟩, ⟨65537, 1⟩, ⟨6700417, 1⟩] := by
  refine ⟨by decide, ?_, by decide, by decide⟩
  simp only [List.forall_mem_cons]
  norm_num

/-- No prime below `d` divides the number. -/
def IsRough (d n : ℕ) : Prop := ∀ prime : ℕ, prime.Prime → prime ∣ n → d ≤ prime

/-- The divisors that are tried: two and the odd numbers above it. -/
def IsTrialDivisor (d : ℕ) : Prop := d = 2 ∨ 2 < d ∧ d % 2 = 1

section Divisors

variable {d m n : ℕ}

theorem IsTrialDivisor.one_lt (h : IsTrialDivisor d) : 1 < d := by
  rcases h with h | h <;> omega

theorem IsTrialDivisor.next (h : IsTrialDivisor d) : IsTrialDivisor (nextDivisor d) := by
  unfold IsTrialDivisor nextDivisor
  rcases h with h | h
  · simp [h]
  · rw [if_neg (by omega)]
    omega

theorem isRough_two (n : ℕ) : IsRough 2 n := fun _ hprime _ => hprime.two_le

theorem IsRough.of_dvd (h : IsRough d n) (hdvd : m ∣ n) : IsRough d m :=
  fun prime hprime hm => h prime hprime (hm.trans hdvd)

/-- A divisor without smaller primes is a prime. -/
theorem IsRough.prime_of_dvd (h : IsRough d n) (hd : 1 < d) (hdvd : d ∣ n) : d.Prime := by
  have hminFac : d.minFac.Prime := Nat.minFac_prime hd.ne'
  have hle : d ≤ d.minFac := h d.minFac hminFac ((Nat.minFac_dvd d).trans hdvd)
  rwa [Nat.le_antisymm (Nat.minFac_le (by omega)) hle] at hminFac

/-- A number whose square root lies below its primes is a prime. -/
theorem IsRough.prime_of_div_lt (h : IsRough d n) (hd : 1 < d) (hn : 1 < n) (hlt : n / d < d) :
    n.Prime := by
  by_contra hcomposite
  have hle : d ≤ n.minFac := h n.minFac (Nat.minFac_prime hn.ne') (Nat.minFac_dvd n)
  have hsquare : d * d ≤ n := by
    calc d * d ≤ n.minFac * n.minFac := Nat.mul_le_mul hle hle
      _ = n.minFac ^ 2 := (sq _).symm
      _ ≤ n := Nat.minFac_sq_le_self (by omega) hcomposite
  have hquotient : d ≤ n / d := (Nat.le_div_iff_mul_le (by omega)).2 hsquare
  omega

/-- Once a divisor is out, the next one to try is not above the primes that are left: the numbers
that are skipped are even, and two was tried first. -/
theorem IsRough.next (h : IsRough d n) (hd : IsTrialDivisor d) (hdvd : ¬ d ∣ n) :
    IsRough (nextDivisor d) n := by
  intro prime hprime hn
  have hle := h prime hprime hn
  have hne : prime ≠ d := by
    rintro rfl
    exact hdvd hn
  unfold nextDivisor
  rcases hd with rfl | hd
  · rw [if_pos rfl]
    omega
  · rw [if_neg (by omega)]
    have hodd : prime % 2 = 1 := (hprime.eq_two_or_odd).resolve_left (by omega)
    omega

end Divisors

/-- The loop of trial division factors every number without primes below the divisor it stands
at. -/
theorem isPrimeFactorization_factorsFrom {d n : ℕ} (hd : IsTrialDivisor d) (hn : 0 < n)
    (hrough : IsRough d n) : IsPrimeFactorization n (factorsFrom d n) := by
  fun_induction factorsFrom d n with
  | case1 d n hcontinue hmod ih =>
      have hone : 1 < d := hcontinue.1
      have hdvd : d ∣ n := Nat.dvd_of_mod_eq_zero hmod
      have hsplit : d ^ (Integer.divideOut d n).1 * (Integer.divideOut d n).2 = n :=
        Integer.pow_mul_divideOut d n
      have hrest : (Integer.divideOut d n).2 ∣ n := Dvd.intro_left _ hsplit
      have hnot : ¬ d ∣ (Integer.divideOut d n).2 := fun h =>
        Integer.divideOut_snd_mod_ne_zero hone hn (Nat.mod_eq_zero_of_dvd h)
      have hexponent : 0 < (Integer.divideOut d n).1 := by
        rw [Integer.divideOut_of_dvd hone hn hmod]
        exact Nat.succ_pos _
      have hnext := (hrough.of_dvd hrest).next hd hnot
      have hfactors := ih hd.next (Integer.divideOut_snd_pos hn) hnext
      have hlt : ∀ q ∈ factorsFrom (nextDivisor d) (Integer.divideOut d n).2, d < q.prime :=
        fun q hq => (lt_nextDivisor d).trans_le
          (hnext q.prime (hfactors.prime q hq) (hfactors.dvd_of_mem hq))
      have hcons := hfactors.cons (p := ⟨d, (Integer.divideOut d n).1⟩)
        (hrough.prime_of_dvd hone hdvd) hexponent hlt
      rwa [PrimePower.value, hsplit] at hcons
  | case2 d n hcontinue hmod ih =>
      exact ih hd.next hn (hrough.next hd fun hdvd => hmod (Nat.mod_eq_zero_of_dvd hdvd))
  | case3 d n hstop hlarge =>
      have hlt : n / d < d := Nat.lt_of_not_le fun hle => hstop ⟨hd.one_lt, hle⟩
      exact .singleton (hrough.prime_of_div_lt hd.one_lt hlarge hlt)
  | case4 d n hstop hsmall =>
      obtain rfl : n = 1 := by omega
      exact .nil

/-- Trial division finds the prime factorization of every positive number. -/
theorem isPrimeFactorization_trialDivision {n : ℕ} (hn : 0 < n) :
    IsPrimeFactorization n (trialDivision n) :=
  isPrimeFactorization_factorsFrom (Or.inl rfl) hn (isRough_two n)

end ExactAlgebra
