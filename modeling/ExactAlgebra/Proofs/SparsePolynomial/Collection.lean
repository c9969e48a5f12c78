import ExactAlgebra.Proofs.SparsePolynomial.Ring
import ExactAlgebra.Proofs.Terms.LongDivision
import Mathlib.Algebra.BigOperators.Group.List.Basic

/-!
Polynomials collected from lists of terms. The terms are added to a store one after the other, and
any of them may cancel what is there or bring it back. At every moment the store is that of the sum
of the terms so far, so in the end each exponent has the sum of the coefficients listed with it, in
whatever order they were listed.
-/

namespace ExactAlgebra

open Polynomial

/-- The coefficient that a list of terms adds up to at an exponent. -/
theorem coeff_polynomialOf_eq_sum (list : List Term) (exponent : ℕ) :
    (polynomialOf list).coeff exponent =
      ((list.filter fun t => t.exponent = exponent).map Term.coefficient).sum := by
  induction list with
  | nil => exact coeff_zero exponent
  | cons t rest ih =>
      rw [polynomialOf, coeff_add, coeff_monomial, ih]
      by_cases h : t.exponent = exponent
      · rw [if_pos h, List.filter_cons_of_pos (by simpa using h), List.map_cons, List.sum_cons]
      · rw [if_neg h, List.filter_cons_of_neg (by simpa using h), zero_add]

namespace Terms

theorem toPolynomial_foldl_accumulate (list : List Term) (p : Terms) :
    (list.foldl accumulate p).toPolynomial = p.toPolynomial + polynomialOf list := by
  induction list generalizing p with
  | nil => exact (add_zero _).symm
  | cons t rest ih => rw [List.foldl_cons, ih, toPolynomial_accumulate, polynomialOf, add_assoc]

theorem toPolynomial_ofList (list : List Term) :
    (ofList list).toPolynomial = polynomialOf list := by
  rw [ofList, toPolynomial_foldl_accumulate, toPolynomial_zero, zero_add]

/-- What is found at an exponent is its coefficient, where nothing stands for zero. -/
theorem get?_getD (p : Terms) (exponent : ℕ) : (p.get? exponent).getD 0 = p.coeff exponent := by
  rw [get?, find?_getD_eq_coefficientAt, coeff, stored]
  split
  · rename_i hnil
    rw [hnil]
    exact (TermStore.lookup_eq_coefficientAt .new exponent).symm.trans
      (TermStore.lookup_new exponent)
  · rfl

end Terms

theorem termExponent_eq_error {value : ℤ} (h : ¬ (0 ≤ value ∧ value ≤ 4294967295)) :
    termExponent value = .error (.invalidTerm .exponentOutOfRange) := by
  have hnone : exponent? value = none := by
    refine dif_neg ?_
    rw [exponentLimit]
    omega
  rw [termExponent, hnone]

theorem exists_termExponent {value : ℤ} (h : 0 ≤ value ∧ value ≤ 4294967295) :
    ∃ exponent, termExponent value = .ok exponent ∧ (exponent.val : ℤ) = value := by
  have hlimit : value.toNat < exponentLimit := by
    rw [exponentLimit]
    omega
  have hsome : exponent? value = some ⟨value.toNat, hlimit⟩ := dif_pos ⟨h.1, hlimit⟩
  exact ⟨⟨value.toNat, hlimit⟩, by rw [termExponent, hsome], Int.toNat_of_nonneg h.1⟩

/-- Integers that are exponents are read as these exponents. -/
theorem exists_mapM_termExponent {exponents : List ℤ}
    (h : ∀ e ∈ exponents, 0 ≤ e ∧ e ≤ 4294967295) :
    ∃ list, exponents.mapM termExponent = .ok list ∧
      list.map (fun e => (e.val : ℤ)) = exponents := by
  induction exponents with
  | nil => exact ⟨[], rfl, rfl⟩
  | cons e rest ih =>
      rw [List.forall_mem_cons] at h
      obtain ⟨exponent, hexponent, hvalue⟩ := exists_termExponent h.1
      obtain ⟨list, hlist, hvalues⟩ := ih h.2
      refine ⟨exponent :: list, ?_, ?_⟩
      · rw [List.mapM_cons, hexponent, hlist]
        rfl
      · rw [List.map_cons, hvalue, hvalues]

/-- One integer that is no exponent makes the list fail, whatever stands before it. -/
theorem mapM_termExponent_eq_error {exponents : List ℤ}
    (h : ¬ ∀ e ∈ exponents, 0 ≤ e ∧ e ≤ 4294967295) :
    exponents.mapM termExponent = .error (.invalidTerm .exponentOutOfRange) := by
  induction exponents with
  | nil => exact absurd (List.forall_mem_nil _) h
  | cons e rest ih =>
      rw [List.mapM_cons]
      by_cases he : 0 ≤ e ∧ e ≤ 4294967295
      · obtain ⟨exponent, hexponent, -⟩ := exists_termExponent he
        have hrest : ¬ ∀ e ∈ rest, 0 ≤ e ∧ e ≤ 4294967295 :=
          fun hall => h (List.forall_mem_cons.2 ⟨he, hall⟩)
        rw [hexponent, ih hrest]
        rfl
      · rw [termExponent_eq_error he]
        rfl

namespace SparsePolynomial

variable {list other : List (ℚ × Exponent)} {coefficients : List ℚ} {exponents : List ℤ}

def pairTerm (t : ℚ × Exponent) : Term := ⟨t.1, t.2.val⟩

/-- The sum of the coefficients that are listed with an exponent. -/
def listedSum (list : List (ℚ × Exponent)) (exponent : ℕ) : ℚ :=
  ((list.filter fun t => t.2.val = exponent).map Prod.fst).sum

/-- The store after the listed terms were added to a new one, one after the other. -/
def collect (list : List (ℚ × Exponent)) : TermStore :=
  list.foldl (fun store t => store.addTerm t.1 t.2.val) .new

theorem exponent_lt_of_mem_ascending (p : SparsePolynomial) :
    ∀ t ∈ p.terms.ascending, t.exponent < exponentLimit := by
  intro t ht
  rw [Terms.ascending, List.mem_reverse, Terms.stored] at ht
  split at ht
  · rw [List.mem_singleton.1 ht]
    decide
  · exact p.below t ht

/-- The stored terms by ascending exponent, as a list to collect from. -/
def storedPairs (p : SparsePolynomial) : List (ℚ × Exponent) :=
  p.terms.ascending.pmap (fun t h => (t.coefficient, ⟨t.exponent, h⟩))
    p.exponent_lt_of_mem_ascending

theorem map_pairTerm_storedPairs (p : SparsePolynomial) :
    p.storedPairs.map pairTerm = p.terms.ascending := by
  rw [storedPairs, List.map_pmap]
  exact List.pmap_eq_self.2 fun _ _ => rfl

theorem toPolynomial_ofTerms (list : List (ℚ × Exponent)) :
    (ofTerms list).terms.toPolynomial = polynomialOf (list.map pairTerm) :=
  Terms.toPolynomial_ofList _

/-- Each exponent has the sum of the coefficients listed with it. -/
theorem coeff_ofTerms (list : List (ℚ × Exponent)) (exponent : ℕ) :
    (ofTerms list).terms.coeff exponent = listedSum list exponent := by
  rw [← Terms.coeff_toPolynomial, toPolynomial_ofTerms, coeff_polynomialOf_eq_sum,
    List.filter_map, List.map_map]
  rfl

theorem listedSum_perm (h : list.Perm other) (exponent : ℕ) :
    listedSum list exponent = listedSum other exponent :=
  ((h.filter _).map _).sum_eq

/-- The order of the list does not matter. -/
theorem ofTerms_perm (h : list.Perm other) : ofTerms list = ofTerms other := by
  refine eq_of_toPolynomial_eq ?_ rfl
  ext exponent
  rw [Terms.coeff_toPolynomial, Terms.coeff_toPolynomial, coeff_ofTerms, coeff_ofTerms,
    listedSum_perm h]

/-- Adding terms to the store of a sum gives the store of the sum with these terms. -/
theorem foldl_addTerm_store (list : List (ℚ × Exponent)) (p : Terms) :
    list.foldl (fun store t => store.addTerm t.1 t.2.val) p.store =
      ((list.map pairTerm).foldl Terms.accumulate p).store := by
  induction list generalizing p with
  | nil => rfl
  | cons t rest ih =>
      rw [List.foldl_cons, List.map_cons, List.foldl_cons, ← ih, Terms.accumulate,
        ← TermStore.addTerm_store]
      rfl

/-- The store that the loop ends with is that of the collected polynomial. -/
theorem collect_eq_store (list : List (ℚ × Exponent)) :
    collect list = (ofTerms list).terms.store :=
  foldl_addTerm_store list 0

theorem toPolynomial_ofTerms_storedPairs (p : SparsePolynomial) :
    (ofTerms p.storedPairs).terms.toPolynomial = p.terms.toPolynomial := by
  rw [toPolynomial_ofTerms, map_pairTerm_storedPairs, Terms.polynomialOf_ascending]

/-- Lists whose integers are exponents give the polynomial of the pairs. -/
theorem exists_ofLists (hlength : coefficients.length = exponents.length)
    (h : ∀ e ∈ exponents, 0 ≤ e ∧ e ≤ 4294967295) :
    ∃ list : List (ℚ × Exponent), list.map Prod.fst = coefficients ∧
      list.map (fun t => (t.2.val : ℤ)) = exponents ∧
      ofLists coefficients exponents = .ok (ofTerms list) := by
  obtain ⟨values, hvalues, hmap⟩ := exists_mapM_termExponent h
  have hlengths : coefficients.length = values.length := by
    rw [hlength, ← hmap, List.length_map]
  refine ⟨coefficients.zip values, List.map_fst_zip hlengths.le, ?_, ?_⟩
  · have hsnd := List.map_snd_zip hlengths.ge
    rw [← hmap]
    conv_rhs => rw [← hsnd, List.map_map]
    rfl
  · rw [ofLists, if_neg (not_not.2 hlength), hvalues]
    rfl

theorem ofLists_eq_error (hlength : coefficients.length = exponents.length)
    (h : ¬ ∀ e ∈ exponents, 0 ≤ e ∧ e ≤ 4294967295) :
    ofLists coefficients exponents = .error (.invalidTerm .exponentOutOfRange) := by
  rw [ofLists, if_neg (not_not.2 hlength), mapM_termExponent_eq_error h]
  rfl

/-- What a polynomial has to be so that a list of terms was collected to it. The store of its terms
is what the loop over the list ends with, and has its one form at every moment of the loop. -/
structure IsCollected (list : List (ℚ × Exponent)) (p : SparsePolynomial) : Prop where
  coeff : ∀ exponent, p.terms.coeff exponent = listedSum list exponent
  found : ∀ exponent, (p.coefficient? exponent).getD 0 = listedSum list exponent
  store : p.terms.store = collect list
  canonical : ∀ count, (collect (list.take count)).Canonical

theorem isCollected_ofTerms (list : List (ℚ × Exponent)) : IsCollected list (ofTerms list) where
  coeff := coeff_ofTerms list
  found exponent := (Terms.get?_getD _ exponent).trans (coeff_ofTerms list exponent)
  store := (collect_eq_store list).symm
  canonical count := by
    rw [collect_eq_store]
    exact TermStore.canonical_store _

/-- Collecting any list of terms, with repetitions, zeros and terms that cancel, gives each exponent
the sum of the coefficients listed with it, and the same polynomial for every order of the list.
Lists of coefficients and of as many integers give the polynomial of their pairs if every integer is
an exponent, and are refused as invalid terms otherwise. The stored terms of a polynomial are
collected to its terms again. -/
theorem ofTerms_isOrderIndependent :
    (∀ list : List (ℚ × Exponent), IsCollected list (ofTerms list) ∧
      ∀ other, list.Perm other → ofTerms other = ofTerms list) ∧
    (∀ (coefficients : List ℚ) (exponents : List ℤ), coefficients.length = exponents.length →
      ((∀ e ∈ exponents, 0 ≤ e ∧ e ≤ 4294967295) →
        ∃ list : List (ℚ × Exponent), list.map Prod.fst = coefficients ∧
          list.map (fun t => (t.2.val : ℤ)) = exponents ∧
          ofLists coefficients exponents = .ok (ofTerms list)) ∧
      ((¬ ∀ e ∈ exponents, 0 ≤ e ∧ e ≤ 4294967295) →
        ofLists coefficients exponents = .error (.invalidTerm .exponentOutOfRange))) ∧
    ∀ p : SparsePolynomial, p.storedPairs.map pairTerm = p.terms.ascending ∧
      (ofTerms p.storedPairs).terms = p.terms := by
  refine ⟨fun list => ⟨isCollected_ofTerms list, ?_⟩, fun coefficients exponents hlength => ?_,
    fun p => ⟨map_pairTerm_storedPairs p, ?_⟩⟩
  · intro other hperm
    exact (ofTerms_perm hperm).symm
  · exact ⟨exists_ofLists hlength, ofLists_eq_error hlength⟩
  · exact Terms.toPolynomial_injective (toPolynomial_ofTerms_storedPairs p)

end SparsePolynomial

end ExactAlgebra
