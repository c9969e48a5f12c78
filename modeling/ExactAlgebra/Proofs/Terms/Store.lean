import ExactAlgebra.Proofs.Terms.Polynomial
import ExactAlgebra.Terms.Store

/-!
Changes of a store of terms. Every change keeps the one form that a store can have, because it makes
and discards the zero term in time, and it changes no coefficient but the one it is about.
-/

namespace ExactAlgebra

/-- The exponents of a list of terms ascend. -/
def Ascending (entries : List Term) : Prop :=
  entries.Pairwise (fun a b => a.exponent < b.exponent)

theorem mem_insertEntry {t u : Term} {entries : List Term} (h : u ∈ insertEntry t entries) :
    u = t ∨ u ∈ entries := by
  induction entries with
  | nil => exact Or.inl (List.mem_singleton.1 h)
  | cons v rest ih =>
      rw [insertEntry] at h
      split at h
      · exact List.mem_cons.1 h
      · split at h
        · rcases List.mem_cons.1 h with rfl | hu
          · exact Or.inl rfl
          · exact Or.inr (List.mem_cons_of_mem v hu)
        · rcases List.mem_cons.1 h with rfl | hu
          · exact Or.inr List.mem_cons_self
          · rcases ih hu with rfl | hrest
            · exact Or.inl rfl
            · exact Or.inr (List.mem_cons_of_mem v hrest)

theorem ascending_insertEntry {entries : List Term} (h : Ascending entries) (t : Term) :
    Ascending (insertEntry t entries) := by
  induction entries with
  | nil => exact List.pairwise_singleton _ t
  | cons u rest ih =>
      rcases List.pairwise_cons.1 h with ⟨hu, hrest⟩
      rw [insertEntry]
      split
      · rename_i hlt
        apply List.pairwise_cons.2
        refine ⟨?_, h⟩
        intro v hv
        rcases List.mem_cons.1 hv with rfl | hv
        · exact hlt
        · exact Nat.lt_trans hlt (hu v hv)
      · split
        · rename_i heq
          apply List.pairwise_cons.2
          refine ⟨?_, hrest⟩
          intro v hv
          rw [heq]
          exact hu v hv
        · rename_i hnlt hne
          apply List.pairwise_cons.2
          refine ⟨?_, ih hrest⟩
          intro v hv
          rcases mem_insertEntry hv with rfl | hv
          · exact Nat.lt_of_le_of_ne (Nat.not_lt.1 hnlt) (Ne.symm hne)
          · exact hu v hv

theorem coefficientAt_insertEntry (t : Term) (entries : List Term) (exponent : Nat) :
    coefficientAt (insertEntry t entries) exponent =
      if exponent = t.exponent then t.coefficient else coefficientAt entries exponent := by
  induction entries with
  | nil =>
      rw [insertEntry, coefficientAt]
      exact if_congr eq_comm rfl rfl
  | cons u rest ih =>
      rw [insertEntry]
      split
      · rw [coefficientAt]
        exact if_congr eq_comm rfl rfl
      · split
        · rename_i heq
          rw [coefficientAt, coefficientAt, heq]
          by_cases h : u.exponent = exponent
          · rw [if_pos h, if_pos h.symm]
          · rw [if_neg h, if_neg (Ne.symm h), if_neg h]
        · rename_i hne
          rw [coefficientAt, coefficientAt, ih]
          by_cases h : u.exponent = exponent
          · have hother : exponent ≠ t.exponent := by
              rintro rfl
              exact hne h.symm
            rw [if_pos h, if_pos h, if_neg hother]
          · rw [if_neg h, if_neg h]

/-- Taking zero terms out does not change the coefficients. -/
theorem coefficientAt_filter_nonzero {entries : List Term} (h : Ascending entries)
    (exponent : Nat) :
    coefficientAt (entries.filter (fun t => t.coefficient != 0)) exponent =
      coefficientAt entries exponent := by
  induction entries with
  | nil => rfl
  | cons t rest ih =>
      rcases List.pairwise_cons.1 h with ⟨ht, hrest⟩
      by_cases hzero : t.coefficient = 0
      · rw [List.filter_cons_of_neg (by simp [hzero]), ih hrest, coefficientAt]
        split
        · rename_i heq
          rw [hzero]
          apply coefficientAt_eq_zero_of_forall_ne
          intro u hu
          exact heq ▸ Nat.ne_of_gt (ht u hu)
        · rfl
      · rw [List.filter_cons_of_pos (by simp [hzero]), coefficientAt, coefficientAt, ih hrest]

theorem find?_getD_eq_coefficientAt (entries : List Term) (exponent : Nat) :
    ((entries.find? (fun t => t.exponent == exponent)).map Term.coefficient).getD 0 =
      coefficientAt entries exponent := by
  induction entries with
  | nil => rfl
  | cons t rest ih =>
      by_cases h : t.exponent = exponent
      · simp [coefficientAt, h]
      · have hne : (t.exponent == exponent) = false := by
          simpa using h
        rw [List.find?_cons, hne, coefficientAt, if_neg h]
        exact ih

namespace TermStore

variable {store : TermStore}

/-- The stored coefficient at an exponent, or zero where no term is stored. -/
def lookup (store : TermStore) (exponent : Nat) : Rat :=
  (store.get? exponent).getD 0

theorem lookup_eq_coefficientAt (store : TermStore) (exponent : Nat) :
    store.lookup exponent = coefficientAt store.entries exponent :=
  find?_getD_eq_coefficientAt store.entries exponent

/-- The one form of a store: it is not empty, its exponents ascend, and zero is stored only as the
single term of the zero store. -/
structure Canonical (store : TermStore) : Prop where
  nonempty : store.entries ≠ []
  ascending : Ascending store.entries
  nonzero : store.entries = [⟨0, 0⟩] ∨ ∀ t ∈ store.entries, t.coefficient ≠ 0

/-- What entries keep between a change and the return to the one form: only the exponent zero can
have the coefficient zero. -/
structure Loose (entries : List Term) : Prop where
  ascending : Ascending entries
  exponent_zero : ∀ t ∈ entries, t.coefficient = 0 → t.exponent = 0

theorem canonical_new : Canonical new :=
  ⟨List.cons_ne_nil _ _, List.pairwise_singleton _ _, Or.inl rfl⟩

theorem Canonical.loose (h : Canonical store) : Loose store.entries := by
  refine ⟨h.ascending, ?_⟩
  intro t ht hzero
  rcases h.nonzero with hnew | hnonzero
  · rw [hnew, List.mem_singleton] at ht
    rw [ht]
  · exact absurd hzero (hnonzero t ht)

theorem Loose.erase {entries : List Term} (h : Loose entries) (exponent : Nat) :
    Loose (eraseEntry exponent entries) := by
  constructor
  · exact h.ascending.filter _
  · intro t ht
    exact h.exponent_zero t (List.mem_filter.1 ht).1

theorem Loose.insert {entries : List Term} (h : Loose entries) {t : Term}
    (ht : t.coefficient ≠ 0) : Loose (insertEntry t entries) := by
  constructor
  · exact ascending_insertEntry h.ascending t
  · intro u hu hzero
    rcases mem_insertEntry hu with rfl | hu
    · exact absurd hzero ht
    · exact h.exponent_zero u hu hzero

/-- Of two terms at least one is not zero, so taking zero terms out of several leaves some. -/
theorem canonical_canonicalize {entries : List Term} (h : Loose entries) :
    Canonical (canonicalize ⟨entries⟩) := by
  rw [canonicalize]
  split
  · exact canonical_new
  · rename_i hne
    split
    · rename_i hlength
      refine ⟨?_, h.ascending.filter _, ?_⟩
      · match entries, hlength with
        | a :: b :: rest, _ =>
            have hab : a.exponent < b.exponent :=
              (List.pairwise_cons.1 h.ascending).1 b List.mem_cons_self
            have hb : b.coefficient ≠ 0 := by
              intro hzero
              have hexponent := h.exponent_zero b (by simp) hzero
              omega
            have hmem : b ∈ (a :: b :: rest).filter (fun t => t.coefficient != 0) := by
              rw [List.mem_filter]
              exact ⟨by simp, by simpa using hb⟩
            exact List.ne_nil_of_mem hmem
      · right
        intro t ht
        simpa using (List.mem_filter.1 ht).2
    · rename_i hlength
      refine ⟨hne, h.ascending, ?_⟩
      match entries, hne, hlength with
      | [t], _, _ =>
          by_cases hzero : t.coefficient = 0
          · left
            have hexponent := h.exponent_zero t List.mem_cons_self hzero
            obtain ⟨coefficient, exponent⟩ := t
            cases hzero
            cases hexponent
            rfl
          · right
            intro u hu
            rwa [List.mem_singleton.1 hu]
      | a :: b :: rest, _, hshort => simp at hshort

theorem lookup_canonicalize {entries : List Term} (h : Loose entries) (exponent : Nat) :
    (canonicalize ⟨entries⟩).lookup exponent = coefficientAt entries exponent := by
  rw [lookup_eq_coefficientAt, canonicalize]
  split
  · rename_i hnil
    change entries = [] at hnil
    rw [hnil]
    change coefficientAt [⟨0, 0⟩] exponent = 0
    rw [coefficientAt]
    split <;> rfl
  · split
    · exact coefficientAt_filter_nonzero h.ascending exponent
    · rfl

theorem set_eq_canonicalize (store : TermStore) (exponent : Nat) (coefficient : Rat) :
    ∃ entries, store.set exponent coefficient = canonicalize ⟨entries⟩ ∧
      (Loose store.entries → Loose entries) ∧
      ∀ other, coefficientAt entries other =
        if other = exponent then coefficient else store.lookup other := by
  by_cases hzero : coefficient = 0
  · refine ⟨eraseEntry exponent store.entries, if_pos hzero, fun h => h.erase exponent, ?_⟩
    intro other
    rw [eraseEntry, Terms.coefficientAt_filter_exponent, hzero, lookup_eq_coefficientAt]
  · refine ⟨insertEntry ⟨coefficient, exponent⟩ store.entries, if_neg hzero,
      fun h => h.insert hzero, ?_⟩
    intro other
    rw [coefficientAt_insertEntry, lookup_eq_coefficientAt]

theorem canonical_set (h : Canonical store) (exponent : Nat) (coefficient : Rat) :
    Canonical (store.set exponent coefficient) := by
  obtain ⟨entries, heq, hloose, _⟩ := set_eq_canonicalize store exponent coefficient
  rw [heq]
  exact canonical_canonicalize (hloose h.loose)

theorem lookup_set (h : Canonical store) (exponent : Nat) (coefficient : Rat) (other : Nat) :
    (store.set exponent coefficient).lookup other =
      if other = exponent then coefficient else store.lookup other := by
  obtain ⟨entries, heq, hloose, hlookup⟩ := set_eq_canonicalize store exponent coefficient
  rw [heq, lookup_canonicalize (hloose h.loose), hlookup]

/-- Adding to a coefficient is setting it to the sum. -/
theorem addTerm_eq_set {coefficient : Rat} (h : coefficient ≠ 0) (store : TermStore)
    (exponent : Nat) :
    store.addTerm coefficient exponent =
      store.set exponent (store.lookup exponent + coefficient) := by
  rw [addTerm, if_neg h, lookup, set]
  cases store.get? exponent with
  | none =>
      have hsum : (none : Option Rat).getD 0 + coefficient = coefficient := zero_add coefficient
      rw [hsum, if_neg h]
  | some former => rfl

theorem canonical_addTerm (h : Canonical store) (coefficient : Rat) (exponent : Nat) :
    Canonical (store.addTerm coefficient exponent) := by
  by_cases hzero : coefficient = 0
  · rwa [addTerm, if_pos hzero]
  · rw [addTerm_eq_set hzero]
    exact canonical_set h _ _

theorem lookup_addTerm (h : Canonical store) (coefficient : Rat) (exponent other : Nat) :
    (store.addTerm coefficient exponent).lookup other =
      if other = exponent then store.lookup exponent + coefficient else store.lookup other := by
  by_cases hzero : coefficient = 0
  · rw [addTerm, if_pos hzero, hzero, add_zero]
    split
    · rename_i heq
      rw [heq]
    · rfl
  · rw [addTerm_eq_set hzero, lookup_set h]

theorem remove_eq_set (store : TermStore) (exponent : Nat) :
    (store.remove exponent).2 = store.set exponent 0 := by
  rw [set, if_pos rfl]
  rfl

theorem lookup_new (exponent : Nat) : new.lookup exponent = 0 := by
  rw [lookup_eq_coefficientAt, new, coefficientAt]
  split <;> rfl

end TermStore

end ExactAlgebra
