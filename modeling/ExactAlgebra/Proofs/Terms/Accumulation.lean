import ExactAlgebra.Proofs.Terms.Refinement

/-!
Sums and products accumulated in a store. Adding the terms of one sum to the store of another, one
after the other, may cancel any term on the way and pass through zero, but it ends in the store of
the sum in normal form. The same holds for all products of two terms.
-/

namespace ExactAlgebra.TermStore

open Polynomial

/-- The store with the products of a term with each of a list of terms added one by one. -/
def addProducts (a : Term) (store : TermStore) (terms : List Term) : TermStore :=
  terms.foldl
    (fun sum b => sum.addTerm (a.coefficient * b.coefficient) (a.exponent + b.exponent)) store

/-- A new store of the products of every two terms of two lists, added one by one. -/
def accumulateProducts (left right : List Term) : TermStore :=
  left.foldl (fun sum a => addProducts a sum right) new

theorem polynomialOf_entries_store (p : Terms) :
    polynomialOf p.store.entries = p.toPolynomial :=
  Terms.polynomialOf_ascending p

/-- A store with the coefficients of a sum of terms is the store of that sum. -/
theorem eq_store_of_lookup {store : TermStore} (h : Canonical store) {p : Terms}
    (hlookup : ∀ exponent, store.lookup exponent = p.toPolynomial.coeff exponent) :
    store = p.store := by
  rw [eq_iff_lookup h (canonical_store p)]
  intro exponent
  rw [hlookup, lookup_store, Terms.coeff_toPolynomial]

theorem polynomialOf_map_neg (list : List Term) :
    polynomialOf (list.map (mapTerm (fun c => -c))) = -polynomialOf list := by
  induction list with
  | nil => exact neg_zero.symm
  | cons t list ih =>
      rw [List.map_cons, polynomialOf, polynomialOf, ih, neg_add]
      change monomial t.exponent (-t.coefficient) + _ = _
      rw [monomial_neg]

theorem addEach_eq_store_add (p q : Terms) :
    addEach id p.store q.store.entries = (p + q).store := by
  apply eq_store_of_lookup (canonical_addEach (canonical_store p) id _)
  intro exponent
  have hsame : q.store.entries.map (mapTerm id) = q.store.entries := List.map_id _
  rw [lookup_addEach (canonical_store p), hsame, polynomialOf_entries_store, lookup_store,
    Terms.toPolynomial_add, coeff_add, Terms.coeff_toPolynomial, Terms.coeff_toPolynomial]

theorem addEach_eq_store_sub (p q : Terms) :
    addEach (fun c => -c) p.store q.store.entries = (p - q).store := by
  apply eq_store_of_lookup (canonical_addEach (canonical_store p) _ _)
  intro exponent
  rw [lookup_addEach (canonical_store p), polynomialOf_map_neg, polynomialOf_entries_store,
    lookup_store, Terms.toPolynomial_sub, coeff_sub, coeff_neg, Terms.coeff_toPolynomial,
    Terms.coeff_toPolynomial, sub_eq_add_neg]

theorem coefficientAt_map {f : Rat → Rat} (hf : f 0 = 0) (entries : List Term) (exponent : Nat) :
    coefficientAt (entries.map (mapTerm f)) exponent = f (coefficientAt entries exponent) := by
  induction entries with
  | nil => exact hf.symm
  | cons t rest ih =>
      rw [List.map_cons, coefficientAt, coefficientAt, ih]
      change (if t.exponent = exponent then f t.coefficient else _) = _
      split <;> rfl

/-- The terms that a function makes of those of a sum, added one by one. -/
theorem mapCoefficients_eq_store {f : Rat → Rat} (hf : f 0 = 0) (p : Terms) :
    p.store.mapCoefficients f = (p.mapCoefficients f).store := by
  apply eq_store_of_lookup (canonical_addEach canonical_new _ _)
  intro exponent
  rw [Terms.coeff_toPolynomial, Terms.coeff_mapCoefficients p hf, ← lookup_store,
    lookup_eq_coefficientAt p.store, ← coefficientAt_map hf]
  exact lookup_mapCoefficients (canonical_store p) f exponent

theorem canonical_addProducts {store : TermStore} (h : Canonical store) (a : Term)
    (terms : List Term) : Canonical (addProducts a store terms) := by
  induction terms generalizing store with
  | nil => exact h
  | cons b terms ih => exact ih (canonical_addTerm h _ _)

theorem lookup_addProducts {store : TermStore} (h : Canonical store) (a : Term)
    (terms : List Term) (exponent : Nat) :
    (addProducts a store terms).lookup exponent =
      store.lookup exponent +
        (monomial a.exponent a.coefficient * polynomialOf terms).coeff exponent := by
  induction terms generalizing store with
  | nil =>
      rw [polynomialOf, mul_zero, coeff_zero, add_zero]
      rfl
  | cons b terms ih =>
      rw [addProducts, List.foldl_cons, ← addProducts, ih (canonical_addTerm h _ _),
        lookup_addTerm_eq_add h, polynomialOf, mul_add, monomial_mul_monomial, coeff_add,
        add_assoc]

/-- The outer loop over the terms of the left factor, from any store. -/
theorem lookup_foldl_addProducts {store : TermStore} (h : Canonical store)
    (left right : List Term) :
    Canonical (left.foldl (fun sum a => addProducts a sum right) store) ∧
      ∀ exponent, (left.foldl (fun sum a => addProducts a sum right) store).lookup exponent =
        store.lookup exponent + (polynomialOf left * polynomialOf right).coeff exponent := by
  induction left generalizing store with
  | nil =>
      refine ⟨h, ?_⟩
      intro exponent
      rw [polynomialOf, zero_mul, coeff_zero, add_zero]
      rfl
  | cons a left ih =>
      obtain ⟨hcanonical, hlookup⟩ := ih (canonical_addProducts h a right)
      refine ⟨hcanonical, ?_⟩
      intro exponent
      rw [List.foldl_cons, hlookup, lookup_addProducts h, polynomialOf, add_mul, coeff_add,
        add_assoc]

theorem accumulateProducts_eq_store_mul (p q : Terms) :
    accumulateProducts p.store.entries q.store.entries = (p * q).store := by
  obtain ⟨hcanonical, hlookup⟩ :=
    lookup_foldl_addProducts canonical_new p.store.entries q.store.entries
  apply eq_store_of_lookup hcanonical
  intro exponent
  rw [hlookup, lookup_new, zero_add, polynomialOf_entries_store, polynomialOf_entries_store,
    Terms.toPolynomial_mul]

end ExactAlgebra.TermStore
