import ExactAlgebra.Proofs.Terms.Accumulation
import ExactAlgebra.Proofs.Terms.Division
import ExactAlgebra.SparsePolynomial.Basic

/-!
Long division on stores. Each round takes a whole multiple of the divisor away from the rest, term
by term, so nothing but exact cancellation makes the leading term vanish and the rest smaller. From
stores of sums of terms the loop comes to an end, all exponents on the way stay below the limit, and
it ends in the stores of quotient and remainder.
-/

namespace ExactAlgebra

namespace TermStore

/-- The term of the largest exponent. -/
def leading (store : TermStore) : Term := store.maxTerm?.getD ⟨0, 0⟩

/-- The products of the terms of a store with one term, added one by one. -/
def mulTerm (store : TermStore) (t : Term) : TermStore := addProducts t new store.entries

/-- The quotient of the terms of the largest exponents. -/
def leadingQuotient (rest divisor : TermStore) : Term :=
  ⟨rest.leading.coefficient / divisor.leading.coefficient,
    rest.leading.exponent - divisor.leading.exponent⟩

end TermStore

/-- A long division on its way: the quotient so far, and what is left to divide. -/
structure LongDivision where
  quotient : TermStore
  rest : TermStore

namespace LongDivision

/-- Something is left, and it reaches the degree of the divisor. -/
def Continues (divisor : TermStore) (division : LongDivision) : Prop :=
  division.rest.isZero = false ∧
    divisor.leading.exponent ≤ division.rest.leading.exponent

/-- The exponents that the next round adds up stay below the limit. -/
def Fits (divisor : TermStore) (division : LongDivision) : Prop :=
  ∀ u ∈ divisor.entries,
    u.exponent + (TermStore.leadingQuotient division.rest divisor).exponent < exponentLimit

/-- After the next round: a multiple of the divisor is taken away, and its factor is added to the
quotient. -/
def next (divisor : TermStore) (division : LongDivision) : LongDivision :=
  let factor := TermStore.leadingQuotient division.rest divisor
  ⟨division.quotient.addTerm factor.coefficient factor.exponent,
    TermStore.addEach (fun c => -c) division.rest (divisor.mulTerm factor).entries⟩

/-- The loop comes to an end, and no exponent on the way is beyond the limit. -/
inductive EndsIn (divisor : TermStore) : LongDivision → LongDivision → Prop
  | stop {division : LongDivision} (hstop : ¬ division.Continues divisor) :
      EndsIn divisor division division
  | round {division last : LongDivision} (hcontinues : division.Continues divisor)
      (hfits : division.Fits divisor) (hrest : EndsIn divisor (division.next divisor) last) :
      EndsIn divisor division last

/-- A division has one end. -/
theorem EndsIn.unique {divisor : TermStore} {division last other : LongDivision}
    (h : EndsIn divisor division last) (hother : EndsIn divisor division other) :
    last = other := by
  induction h with
  | stop hstop =>
      cases hother with
      | stop => rfl
      | round hcontinues => exact absurd hcontinues hstop
  | round hcontinues hfits hrest ih =>
      cases hother with
      | stop hstop => exact absurd hcontinues hstop
      | round _ _ hrest' => exact ih hrest'

end LongDivision

namespace TermStore

open Polynomial

theorem leading_store (p : Terms) : p.store.leading = p.leading := by
  rw [leading, maxTerm?, Terms.store, Terms.ascending, Terms.stored_eq_leading_cons,
    List.getLast?_reverse]
  rfl

theorem isZero_store_eq_false_iff {p : Terms} : p.store.isZero = false ↔ p ≠ 0 := by
  rw [← Bool.not_eq_true, isZero_iff_lookup (canonical_store p), not_iff_not]
  constructor
  · intro h
    apply Terms.ext_coeff
    intro exponent
    rw [← lookup_store, h, Terms.coeff_zero]
  · rintro rfl exponent
    rw [lookup_store, Terms.coeff_zero]

theorem mulTerm_store (p : Terms) (t : Term) : p.store.mulTerm t = (p.mulTerm t).store := by
  apply eq_store_of_lookup (canonical_addProducts canonical_new t _)
  intro exponent
  rw [lookup_addProducts canonical_new, lookup_new, zero_add, polynomialOf_entries_store,
    Terms.toPolynomial_mulTerm, mul_comm]

theorem addTerm_store (p : Terms) (t : Term) :
    p.store.addTerm t.coefficient t.exponent = (p + Terms.single t).store := by
  apply eq_store_of_lookup (canonical_addTerm (canonical_store p) _ _)
  intro exponent
  rw [lookup_addTerm_eq_add (canonical_store p), lookup_store, Terms.toPolynomial_add,
    Terms.toPolynomial_single, coeff_add, Terms.coeff_toPolynomial]

theorem leadingQuotient_store (p d : Terms) :
    leadingQuotient p.store d.store = Terms.leadingQuotient p d := by
  rw [leadingQuotient, leading_store, leading_store]
  rfl

end TermStore

namespace Terms

/-- Taking the whole multiple of the divisor away cancels the leading term exactly. -/
theorem sub_mulTerm_eq_eliminateLeading {p d : Terms} (hd : d ≠ 0) (h : d.degree ≤ p.degree) :
    p - d.mulTerm (leadingQuotient p d) = eliminateLeading p d := by
  apply toPolynomial_injective
  rw [toPolynomial_sub, toPolynomial_mulTerm, toPolynomial_eliminateLeading hd h,
    toPolynomial_single]
  ring

end Terms

namespace LongDivision

variable {p q d : Terms}

theorem continues_store_iff :
    (⟨q.store, p.store⟩ : LongDivision).Continues d.store ↔ p ≠ 0 ∧ d.degree ≤ p.degree := by
  rw [Continues, TermStore.isZero_store_eq_false_iff, TermStore.leading_store,
    TermStore.leading_store]
  rfl

/-- The largest exponent of the multiple is that of the rest. -/
theorem fits_store (hd : d ≠ 0) (hp : p.Below exponentLimit) (hnonzero : p ≠ 0)
    (hdegree : d.degree ≤ p.degree) : (⟨q.store, p.store⟩ : LongDivision).Fits d.store := by
  intro u hu
  have hlimit : p.degree < exponentLimit := Terms.degree_lt_of_below hp hnonzero
  have hbelow : d.Below (d.degree + 1) := d.below_degree_succ
  have hstored : u ∈ d.list := by
    rwa [Terms.store, Terms.ascending, List.mem_reverse, Terms.stored_of_ne_zero hd] at hu
  have hexponent : u.exponent ≤ d.degree := Nat.le_of_lt_succ (hbelow u hstored)
  rw [TermStore.leadingQuotient_store]
  change u.exponent + (p.degree - d.degree) < exponentLimit
  omega

theorem next_store (hd : d ≠ 0) (hdegree : d.degree ≤ p.degree) :
    (⟨q.store, p.store⟩ : LongDivision).next d.store =
      ⟨(q + Terms.single (Terms.leadingQuotient p d)).store,
        (Terms.eliminateLeading p d).store⟩ := by
  simp only [next, TermStore.leadingQuotient_store, TermStore.addTerm_store,
    TermStore.mulTerm_store, TermStore.addEach_eq_store_sub,
    Terms.sub_mulTerm_eq_eliminateLeading hd hdegree]

/-- From any quotient on, the loop adds the quotient of what is left and leaves its remainder. -/
theorem endsIn_divMod (hd : d ≠ 0) (hp : p.Below exponentLimit) (q : Terms) :
    EndsIn d.store ⟨q.store, p.store⟩
      ⟨(q + (Terms.divMod p d).1).store, (Terms.divMod p d).2.store⟩ := by
  fun_induction Terms.divMod p d generalizing q with
  | case1 p hstop =>
      have hzero : q + 0 = q := Terms.toPolynomial_injective (by simp)
      rw [hzero]
      refine .stop fun hcontinues => ?_
      obtain ⟨hnonzero, hdegree⟩ := continues_store_iff.1 hcontinues
      rcases hstop with hstop | hstop | hstop
      · exact hnonzero hstop
      · exact hd hstop
      · omega
  | case2 p hcontinue rest ih =>
      simp only [not_or, Nat.not_lt] at hcontinue
      obtain ⟨hnonzero, _, hdegree⟩ := hcontinue
      have hrest : (Terms.eliminateLeading p d).Below exponentLimit :=
        (Terms.below_eliminateLeading hdegree).mono
          (Nat.le_of_lt (Terms.degree_lt_of_below hp hnonzero))
      have hsum : q + (Terms.single (Terms.leadingQuotient p d) + rest.1) =
          q + Terms.single (Terms.leadingQuotient p d) + rest.1 :=
        Terms.toPolynomial_injective (by simp [add_assoc])
      refine .round (continues_store_iff.2 ⟨hnonzero, hdegree⟩)
        (fits_store hd hp hnonzero hdegree) ?_
      rw [next_store hd hdegree, hsum]
      exact ih hrest _

/-- The loop begins with no quotient, and ends with quotient and remainder and nowhere else. -/
theorem endsIn_iff (hd : d ≠ 0) (hp : p.Below exponentLimit) {last : LongDivision} :
    EndsIn d.store ⟨TermStore.new, p.store⟩ last ↔
      last = ⟨(Terms.divMod p d).1.store, (Terms.divMod p d).2.store⟩ := by
  have hzero : 0 + (Terms.divMod p d).1 = (Terms.divMod p d).1 :=
    Terms.toPolynomial_injective (by simp)
  have hends := endsIn_divMod hd hp 0
  rw [hzero] at hends
  constructor
  · intro hlast
    exact hlast.unique hends
  · rintro rfl
    exact hends

end LongDivision

end ExactAlgebra
