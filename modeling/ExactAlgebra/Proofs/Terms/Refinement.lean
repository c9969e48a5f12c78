import ExactAlgebra.Proofs.Terms.Store
import Mathlib.Data.Finsupp.Single
import Mathlib.Data.List.Nodup
import Mathlib.Order.Bounds.Basic

/-!
Stores of terms as finitely supported functions from exponents to numbers. What a sequence of
changes does to the zero store is what the changes do to the zero function. A store in its one form
is the store of exactly one sum of terms, so it is determined by its coefficients.
-/

namespace ExactAlgebra

open Polynomial

theorem Ascending.pairwise_ne {entries : List Term} (h : Ascending entries) :
    entries.Pairwise (fun a b => a.exponent ≠ b.exponent) :=
  h.imp Nat.ne_of_lt

namespace TermStore

variable {store other : TermStore}

theorem canonical_store (p : Terms) : Canonical p.store := by
  refine ⟨?_, ?_, ?_⟩
  · intro hnil
    exact p.stored_ne_nil (List.reverse_eq_nil_iff.1 hnil)
  · exact List.pairwise_reverse.2 p.descending_stored
  · by_cases hp : p = 0
    · subst hp
      exact Or.inl rfl
    · right
      intro t ht
      rw [Terms.store, Terms.ascending, List.mem_reverse, Terms.stored_of_ne_zero hp] at ht
      exact p.normal.nonzero t ht

theorem lookup_store (p : Terms) (exponent : Nat) : p.store.lookup exponent = p.coeff exponent := by
  have hdistinct := (canonical_store p).ascending.pairwise_ne
  rw [lookup_eq_coefficientAt, ← coeff_polynomialOf hdistinct, Terms.store,
    Terms.polynomialOf_ascending, Terms.coeff_toPolynomial]

/-- A store in its one form is the store of a sum of terms. -/
theorem Canonical.exists_terms (h : Canonical store) : ∃ p : Terms, p.store = store := by
  obtain ⟨entries⟩ := store
  rcases h.nonzero with hzero | hnonzero
  · refine ⟨0, ?_⟩
    change TermStore.mk [⟨0, 0⟩] = ⟨entries⟩
    exact congrArg TermStore.mk hzero.symm
  · have hnormal : Normal entries.reverse := by
      constructor
      · exact List.pairwise_reverse.2 h.ascending
      · intro t ht
        exact hnonzero t (List.mem_reverse.1 ht)
    have hne : entries.reverse ≠ [] := fun hnil => h.nonempty (List.reverse_eq_nil_iff.1 hnil)
    refine ⟨⟨entries.reverse, hnormal⟩, ?_⟩
    rw [Terms.store, Terms.ascending, Terms.stored, if_neg hne, List.reverse_reverse]

/-- The coefficients determine the store. -/
theorem eq_iff_lookup (h : Canonical store) (hother : Canonical other) :
    store = other ↔ ∀ exponent, store.lookup exponent = other.lookup exponent := by
  constructor
  · intro heq exponent
    rw [heq]
  · intro hlookup
    obtain ⟨p, rfl⟩ := h.exists_terms
    obtain ⟨q, rfl⟩ := hother.exists_terms
    have hterms : p = q := by
      apply Terms.ext_coeff
      intro exponent
      rw [← lookup_store, hlookup, lookup_store]
    rw [hterms]

theorem isZero_iff_eq_new (h : Canonical store) : store.isZero = true ↔ store = new := by
  constructor
  · intro hzero
    obtain ⟨entries⟩ := store
    rcases h.nonzero with hnew | hnonzero
    · exact congrArg TermStore.mk hnew
    · exfalso
      match entries with
      | [] => exact h.nonempty rfl
      | [t] =>
          have ht : t.coefficient = 0 := by
            simpa [isZero, size, maxTerm?] using hzero
          exact hnonzero t List.mem_cons_self ht
      | a :: b :: rest => simp [isZero, size] at hzero
  · rintro rfl
    rfl

/-- Only the zero store is zero. -/
theorem isZero_iff_lookup (h : Canonical store) :
    store.isZero = true ↔ ∀ exponent, store.lookup exponent = 0 := by
  rw [isZero_iff_eq_new h, eq_iff_lookup h canonical_new]
  simp only [lookup_new]

theorem degree?_store (p : Terms) : p.store.degree? = some p.degree := by
  rw [degree?, maxTerm?, Terms.store, Terms.ascending, Terms.stored_eq_leading_cons,
    List.getLast?_reverse]
  rfl

theorem degree_isGreatest {p : Terms} (hp : p ≠ 0) :
    IsGreatest {exponent | p.coeff exponent ≠ 0} p.degree := by
  constructor
  · change p.coeff p.degree ≠ 0
    rw [Terms.coeff, Terms.list_eq_leading_cons hp, coefficientAt, Terms.degree, if_pos rfl]
    exact Terms.leading_coefficient_ne_zero hp
  · intro exponent hne
    by_contra hlt
    apply hne
    have hbelow : p.Below (p.degree + 1) := (Terms.below_iff_degree hp).2 (Nat.lt_succ_self _)
    exact coefficientAt_eq_zero_of_below hbelow (Nat.not_le.1 hlt)

/-- The degree is the largest exponent with a nonzero coefficient, or zero for the zero store. -/
theorem exists_degree (h : Canonical store) :
    ∃ degree, store.degree? = some degree ∧
      (IsGreatest {exponent | store.lookup exponent ≠ 0} degree ∨
        ((∀ exponent, store.lookup exponent = 0) ∧ degree = 0)) := by
  obtain ⟨p, rfl⟩ := h.exists_terms
  refine ⟨p.degree, degree?_store p, ?_⟩
  simp only [lookup_store]
  by_cases hp : p = 0
  · subst hp
    exact Or.inr ⟨Terms.coeff_zero, Terms.degree_zero⟩
  · exact Or.inl (degree_isGreatest hp)

/-- The coefficient found at an exponent is that of the entry there. -/
theorem get?_eq_some_iff (h : Canonical store) (exponent : Nat) (c : Rat) :
    store.get? exponent = some c ↔ ⟨c, exponent⟩ ∈ store.entries := by
  rw [get?, Option.map_eq_some_iff]
  constructor
  · rintro ⟨t, hfind, rfl⟩
    have hexponent : t.exponent = exponent := by
      simpa using List.find?_some hfind
    rw [← hexponent]
    exact List.mem_of_find?_eq_some hfind
  · intro hmem
    have hsome : (store.entries.find? (fun t => t.exponent == exponent)).isSome := by
      rw [List.find?_isSome]
      exact ⟨_, hmem, by simp⟩
    obtain ⟨t, hfind⟩ := Option.isSome_iff_exists.1 hsome
    refine ⟨t, hfind, ?_⟩
    have hexponent : t.exponent = exponent := by
      simpa using List.find?_some hfind
    have hnodup : (store.entries.map Term.exponent).Nodup := by
      rw [List.Nodup, List.pairwise_map]
      exact h.ascending.pairwise_ne
    have heq := List.inj_on_of_nodup_map hnodup (List.mem_of_find?_eq_some hfind) hmem hexponent
    rw [heq]

def mapTerm (f : Rat → Rat) (t : Term) : Term := ⟨f t.coefficient, t.exponent⟩

theorem canonical_addEach (h : Canonical store) (f : Rat → Rat) (terms : List Term) :
    Canonical (addEach f store terms) := by
  induction terms generalizing store with
  | nil => exact h
  | cons t terms ih => exact ih (canonical_addTerm h _ _)

theorem lookup_addTerm_eq_add (h : Canonical store) (c : Rat) (e exponent : Nat) :
    (store.addTerm c e).lookup exponent =
      store.lookup exponent + (monomial e c : ℚ[X]).coeff exponent := by
  rw [lookup_addTerm h, coeff_monomial]
  by_cases heq : e = exponent
  · rw [if_pos heq.symm, if_pos heq, heq]
  · rw [if_neg (Ne.symm heq), if_neg heq, add_zero]

/-- Terms that are added one by one are added as a sum. -/
theorem lookup_addEach (h : Canonical store) (f : Rat → Rat) (terms : List Term)
    (exponent : Nat) :
    (addEach f store terms).lookup exponent =
      store.lookup exponent + (polynomialOf (terms.map (mapTerm f))).coeff exponent := by
  induction terms generalizing store with
  | nil => exact (add_zero _).symm
  | cons t terms ih =>
      rw [List.map_cons, polynomialOf, coeff_add, ← add_assoc]
      change (addEach f (store.addTerm (f t.coefficient) t.exponent) terms).lookup exponent = _
      rw [ih (canonical_addTerm h _ _), lookup_addTerm_eq_add h]
      rfl

theorem lookup_mapCoefficients (h : Canonical store) (f : Rat → Rat) (exponent : Nat) :
    (store.mapCoefficients f).lookup exponent =
      coefficientAt (store.entries.map (mapTerm f)) exponent := by
  have hdistinct : (store.entries.map (mapTerm f)).Pairwise
      (fun a b => a.exponent ≠ b.exponent) := by
    rw [List.pairwise_map]
    exact h.ascending.pairwise_ne
  rw [mapCoefficients, lookup_addEach canonical_new, lookup_new, zero_add,
    coeff_polynomialOf hdistinct]

/-- A function on coefficients, kept from making terms where there are none. -/
def onNonzero (f : Rat → Rat) (c : Rat) : Rat :=
  if c = 0 then 0 else f c

theorem onNonzero_zero (f : Rat → Rat) : onNonzero f 0 = 0 := if_pos rfl

theorem coefficientAt_map_of_nonzero {entries : List Term}
    (h : ∀ t ∈ entries, t.coefficient ≠ 0) (f : Rat → Rat) (exponent : Nat) :
    coefficientAt (entries.map (mapTerm f)) exponent =
      onNonzero f (coefficientAt entries exponent) := by
  induction entries with
  | nil => exact (onNonzero_zero f).symm
  | cons t rest ih =>
      rw [List.map_cons, coefficientAt, coefficientAt,
        ih fun u hu => h u (List.mem_cons_of_mem t hu)]
      change (if t.exponent = exponent then f t.coefficient else _) = _
      by_cases heq : t.exponent = exponent
      · rw [if_pos heq, if_pos heq, onNonzero, if_neg (h t List.mem_cons_self)]
      · rw [if_neg heq, if_neg heq]

/-- The operations that change a store. -/
inductive Change where
  | set (exponent : Nat) (coefficient : Rat)
  | addTerm (coefficient : Rat) (exponent : Nat)
  | remove (exponent : Nat)
  | clear
  | mapCoefficients (f : Rat → Rat)

def Change.apply : Change → TermStore → TermStore
  | .set exponent coefficient, store => store.set exponent coefficient
  | .addTerm coefficient exponent, store => store.addTerm coefficient exponent
  | .remove exponent, store => (store.remove exponent).2
  | .clear, store => store.clear
  | .mapCoefficients f, store => store.mapCoefficients f

/-- The store after a sequence of changes of a new one. -/
def afterChanges (changes : List Change) : TermStore :=
  changes.foldl (fun store change => change.apply store) new

/-- What a change does to a function from exponents to numbers. Only a map over the zero function
can make a term where there was none, as the stored zero is mapped as well. -/
noncomputable def Change.onFunction : Change → (ℕ →₀ ℚ) → (ℕ →₀ ℚ)
  | .set exponent coefficient, g => g.update exponent coefficient
  | .addTerm coefficient exponent, g => g + Finsupp.single exponent coefficient
  | .remove exponent, g => g.erase exponent
  | .clear, _ => 0
  | .mapCoefficients f, g =>
      if g = 0 then Finsupp.single 0 (f 0) else g.mapRange (onNonzero f) (onNonzero_zero f)

/-- The store stands for the function. -/
def Refines (store : TermStore) (g : ℕ →₀ ℚ) : Prop :=
  Canonical store ∧ ∀ exponent, store.lookup exponent = g exponent

theorem refines_new : Refines new 0 := ⟨canonical_new, lookup_new⟩

theorem Refines.eq_zero_iff {g : ℕ →₀ ℚ} (h : Refines store g) : g = 0 ↔ store = new := by
  rw [eq_iff_lookup h.1 canonical_new, Finsupp.ext_iff]
  simp only [h.2, lookup_new, Finsupp.coe_zero, Pi.zero_apply]

theorem Refines.mapCoefficients {g : ℕ →₀ ℚ} (h : Refines store g) (f : Rat → Rat) :
    Refines (store.mapCoefficients f) ((Change.mapCoefficients f).onFunction g) := by
  refine ⟨canonical_addEach canonical_new f store.entries, ?_⟩
  intro exponent
  rw [lookup_mapCoefficients h.1, Change.onFunction]
  by_cases hzero : g = 0
  · rw [if_pos hzero, h.eq_zero_iff.1 hzero, Finsupp.single_apply]
    rfl
  · have hnonzero : ∀ t ∈ store.entries, t.coefficient ≠ 0 := by
      rcases h.1.nonzero with hnew | hnonzero
      · exact absurd (h.eq_zero_iff.2 (congrArg TermStore.mk hnew)) hzero
      · exact hnonzero
    rw [if_neg hzero, Finsupp.mapRange_apply, ← h.2, lookup_eq_coefficientAt,
      coefficientAt_map_of_nonzero hnonzero]

/-- One change of the store is the change of the function. -/
theorem Refines.apply {g : ℕ →₀ ℚ} (h : Refines store g) (change : Change) :
    Refines (change.apply store) (change.onFunction g) := by
  cases change with
  | set exponent c =>
      refine ⟨canonical_set h.1 exponent c, ?_⟩
      intro other
      rw [Change.apply, lookup_set h.1, Change.onFunction, Finsupp.update_apply, h.2]
  | addTerm c exponent =>
      refine ⟨canonical_addTerm h.1 c exponent, ?_⟩
      intro other
      rw [Change.apply, lookup_addTerm_eq_add h.1, coeff_monomial, Change.onFunction,
        Finsupp.add_apply, Finsupp.single_apply, h.2]
  | remove exponent =>
      rw [Change.apply, remove_eq_set]
      refine ⟨canonical_set h.1 exponent 0, ?_⟩
      intro other
      rw [lookup_set h.1, Change.onFunction, Finsupp.erase_apply, h.2]
  | clear => exact refines_new
  | mapCoefficients f => exact h.mapCoefficients f

/-- A sequence of changes acts on the function as the changes do one after the other. -/
theorem refines_afterChanges (changes : List Change) :
    Refines (afterChanges changes) (changes.foldl (fun g change => change.onFunction g) 0) := by
  have hrun : ∀ (store : TermStore) (g : ℕ →₀ ℚ), Refines store g →
      Refines (changes.foldl (fun store change => change.apply store) store)
        (changes.foldl (fun g change => change.onFunction g) g) := by
    induction changes with
    | nil =>
        intro store g h
        exact h
    | cons change rest ih =>
        intro store g h
        exact ih _ _ (h.apply change)
  exact hrun new 0 refines_new

/-- What the operations on a store do to the coefficients that can be looked up. -/
structure ChangesLookup (store : TermStore) : Prop where
  set : ∀ exponent c other, (store.set exponent c).lookup other =
    if other = exponent then c else store.lookup other
  addTerm : ∀ c exponent other, (store.addTerm c exponent).lookup other =
    if other = exponent then store.lookup exponent + c else store.lookup other
  removed : ∀ exponent, (store.remove exponent).1 = store.get? exponent
  remove : ∀ exponent other, (store.remove exponent).2.lookup other =
    if other = exponent then 0 else store.lookup other
  clear : ∀ other, store.clear.lookup other = 0

theorem Canonical.changesLookup (h : Canonical store) : ChangesLookup store where
  set := lookup_set h
  addTerm := lookup_addTerm h
  removed := fun _ => rfl
  remove := by
    intro exponent other
    rw [remove_eq_set, lookup_set h]
  clear := lookup_new

/-- Every store that is reached from a new one has its one form and stands for a finitely supported
function: changes act on the store as on the function, and the function determines the store and
what the store tells about itself. -/
theorem afterChanges_refines (changes : List Change) :
    Canonical (afterChanges changes) ∧
    (∀ exponent, (afterChanges changes).lookup exponent =
      changes.foldl (fun g change => change.onFunction g) (0 : ℕ →₀ ℚ) exponent) ∧
    (∀ exponent c, (afterChanges changes).get? exponent = some c ↔
      ⟨c, exponent⟩ ∈ (afterChanges changes).entries) ∧
    ChangesLookup (afterChanges changes) ∧
    (∀ others : List Change, afterChanges changes = afterChanges others ↔
      ∀ exponent, (afterChanges changes).lookup exponent =
        (afterChanges others).lookup exponent) ∧
    ((afterChanges changes).isZero = true ↔
      ∀ exponent, (afterChanges changes).lookup exponent = 0) ∧
    ∃ degree, (afterChanges changes).degree? = some degree ∧
      (IsGreatest {exponent | (afterChanges changes).lookup exponent ≠ 0} degree ∨
        ((∀ exponent, (afterChanges changes).lookup exponent = 0) ∧ degree = 0)) := by
  have hrefines := refines_afterChanges changes
  have hcanonical := hrefines.1
  refine ⟨hcanonical, hrefines.2, get?_eq_some_iff hcanonical, hcanonical.changesLookup, ?_,
    isZero_iff_lookup hcanonical, exists_degree hcanonical⟩
  intro others
  exact eq_iff_lookup hcanonical (refines_afterChanges others).1

end TermStore

end ExactAlgebra
