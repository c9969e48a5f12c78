import ExactAlgebra.Terms.Division
import Mathlib.Algebra.Polynomial.Degree.Lemmas

/-!
Sums of terms as polynomials over the rational numbers. The view keeps every coefficient, so it is
injective, and it turns each operation on terms into the operation of the polynomial ring.
-/

namespace ExactAlgebra

open Polynomial

/-- The polynomial that a list of terms adds up to. -/
noncomputable def polynomialOf : List Term → ℚ[X]
  | [] => 0
  | t :: rest => monomial t.exponent t.coefficient + polynomialOf rest

theorem polynomialOf_append (left right : List Term) :
    polynomialOf (left ++ right) = polynomialOf left + polynomialOf right := by
  induction left with
  | nil => exact (zero_add _).symm
  | cons t left ih => rw [List.cons_append, polynomialOf, polynomialOf, ih, add_assoc]

theorem polynomialOf_reverse (list : List Term) :
    polynomialOf list.reverse = polynomialOf list := by
  induction list with
  | nil => rfl
  | cons t list ih =>
      rw [List.reverse_cons, polynomialOf_append, ih, polynomialOf, polynomialOf, polynomialOf,
        add_zero, add_comm]

theorem coefficientAt_eq_zero_of_forall_ne {list : List Term} {exponent : Nat}
    (h : ∀ t ∈ list, t.exponent ≠ exponent) : coefficientAt list exponent = 0 := by
  induction list with
  | nil => rfl
  | cons t rest ih =>
      rw [coefficientAt, if_neg (h t List.mem_cons_self)]
      exact ih (fun u hu => h u (List.mem_cons_of_mem t hu))

/-- Terms of distinct exponents are the coefficients of what they add up to. -/
theorem coeff_polynomialOf {list : List Term}
    (h : list.Pairwise (fun a b => a.exponent ≠ b.exponent)) (exponent : Nat) :
    (polynomialOf list).coeff exponent = coefficientAt list exponent := by
  induction list with
  | nil => exact coeff_zero exponent
  | cons t rest ih =>
      rcases List.pairwise_cons.1 h with ⟨ht, hrest⟩
      rw [polynomialOf, coeff_add, coeff_monomial, ih hrest, coefficientAt]
      split
      · rename_i heq
        have hzero : coefficientAt rest exponent = 0 := by
          apply coefficientAt_eq_zero_of_forall_ne
          intro u hu
          exact heq ▸ (ht u hu).symm
        rw [hzero, add_zero]
      · rw [zero_add]

namespace Terms

/-- The sum of terms as a polynomial. -/
noncomputable def toPolynomial (p : Terms) : ℚ[X] := polynomialOf p.list

@[simp] theorem coeff_toPolynomial (p : Terms) (exponent : Nat) :
    p.toPolynomial.coeff exponent = p.coeff exponent :=
  coeff_polynomialOf (p.normal.descending.imp Nat.ne_of_gt) exponent

theorem toPolynomial_injective : Function.Injective toPolynomial := by
  intro p q h
  apply ext_coeff
  intro exponent
  rw [← coeff_toPolynomial, h, coeff_toPolynomial]

theorem toPolynomial_inj {p q : Terms} : p.toPolynomial = q.toPolynomial ↔ p = q :=
  toPolynomial_injective.eq_iff

@[simp] theorem toPolynomial_zero : (0 : Terms).toPolynomial = 0 := rfl

@[simp] theorem toPolynomial_eq_zero_iff (p : Terms) : p.toPolynomial = 0 ↔ p = 0 := by
  rw [← toPolynomial_zero, toPolynomial_inj]

theorem leading_add_tail_eq_toPolynomial (p : Terms) :
    monomial p.leading.exponent p.leading.coefficient + polynomialOf p.tail.list =
      p.toPolynomial := by
  by_cases hp : p = 0
  · subst hp
    change monomial 0 0 + 0 = (0 : ℚ[X])
    rw [monomial_zero_right, add_zero]
  · rw [toPolynomial, list_eq_leading_cons hp, polynomialOf]

/-- The stored terms add up to the polynomial, in either direction. -/
theorem polynomialOf_ascending (p : Terms) : polynomialOf p.ascending = p.toPolynomial := by
  rw [ascending, polynomialOf_reverse, stored_eq_leading_cons, polynomialOf,
    leading_add_tail_eq_toPolynomial]

@[simp] theorem toPolynomial_single (t : Term) :
    (single t).toPolynomial = monomial t.exponent t.coefficient := by
  ext exponent
  rw [coeff_toPolynomial, coeff_single, coeff_monomial]

@[simp] theorem toPolynomial_constant (value : Rat) :
    (constant value).toPolynomial = C value := by
  rw [constant, toPolynomial_single, monomial_zero_left]

@[simp] theorem toPolynomial_add (p q : Terms) :
    (p + q).toPolynomial = p.toPolynomial + q.toPolynomial := by
  ext exponent
  rw [Polynomial.coeff_add, coeff_toPolynomial, coeff_toPolynomial, coeff_toPolynomial,
    Terms.coeff_add]

@[simp] theorem toPolynomial_neg (p : Terms) : (-p).toPolynomial = -p.toPolynomial := by
  ext exponent
  rw [Polynomial.coeff_neg, coeff_toPolynomial, coeff_toPolynomial, Terms.coeff_neg]

@[simp] theorem toPolynomial_sub (p q : Terms) :
    (p - q).toPolynomial = p.toPolynomial - q.toPolynomial := by
  rw [sub_def, toPolynomial_add, toPolynomial_neg, sub_eq_add_neg]

@[simp] theorem toPolynomial_accumulate (p : Terms) (t : Term) :
    (p.accumulate t).toPolynomial = p.toPolynomial + monomial t.exponent t.coefficient := by
  rw [accumulate, toPolynomial_add, toPolynomial_single]

theorem toPolynomial_scale (p : Terms) (factor : Rat) :
    (p.mapCoefficients (· * factor)).toPolynomial = p.toPolynomial * C factor := by
  ext exponent
  rw [coeff_toPolynomial, coeff_mapCoefficients p (Rat.zero_mul factor), coeff_mul_C,
    coeff_toPolynomial]

theorem toPolynomial_mulTerm (t : Term) (p : Terms) :
    (p.mulTerm t).toPolynomial = p.toPolynomial * monomial t.exponent t.coefficient := by
  ext exponent
  rw [coeff_toPolynomial, coeff_mulTerm, ← C_mul_X_pow_eq_monomial, ← mul_assoc,
    coeff_mul_X_pow', coeff_mul_C, coeff_toPolynomial]

@[simp] theorem toPolynomial_mul (p q : Terms) :
    (p * q).toPolynomial = p.toPolynomial * q.toPolynomial := by
  change (p.list.foldr (fun t product => q.mulTerm t + product) 0).toPolynomial =
    polynomialOf p.list * q.toPolynomial
  induction p.list with
  | nil => rw [List.foldr_nil, toPolynomial_zero, polynomialOf, zero_mul]
  | cons t rest ih =>
      rw [List.foldr_cons, toPolynomial_add, ih, toPolynomial_mulTerm, polynomialOf, add_mul,
        mul_comm q.toPolynomial]

/-- The stored degree is the degree of the polynomial, which is zero for zero. -/
@[simp] theorem natDegree_toPolynomial (p : Terms) : p.toPolynomial.natDegree = p.degree := by
  by_cases hp : p = 0
  · rw [hp, toPolynomial_zero, natDegree_zero, degree_zero]
  · apply natDegree_eq_of_le_of_coeff_ne_zero
    · rw [natDegree_le_iff_coeff_eq_zero]
      intro exponent hlt
      have hbelow : p.Below (p.degree + 1) := (below_iff_degree hp).2 (Nat.lt_succ_self _)
      rw [coeff_toPolynomial]
      exact coefficientAt_eq_zero_of_below hbelow hlt
    · rw [coeff_toPolynomial, coeff, list_eq_leading_cons hp, coefficientAt, degree, if_pos rfl]
      exact leading_coefficient_ne_zero hp

theorem degree_mul {p q : Terms} (hp : p ≠ 0) (hq : q ≠ 0) :
    (p * q).degree = p.degree + q.degree := by
  have hp' : p.toPolynomial ≠ 0 := fun h => hp ((toPolynomial_eq_zero_iff p).1 h)
  have hq' : q.toPolynomial ≠ 0 := fun h => hq ((toPolynomial_eq_zero_iff q).1 h)
  rw [← natDegree_toPolynomial, toPolynomial_mul, natDegree_mul hp' hq',
    natDegree_toPolynomial, natDegree_toPolynomial]

theorem degree_mul_le (p q : Terms) : (p * q).degree ≤ p.degree + q.degree := by
  rw [← natDegree_toPolynomial, toPolynomial_mul, ← natDegree_toPolynomial p,
    ← natDegree_toPolynomial q]
  exact natDegree_mul_le

theorem degree_le_of_below {limit : Nat} {p : Terms} (h : p.Below (limit + 1)) :
    p.degree ≤ limit := by
  by_cases hp : p = 0
  · rw [hp, degree_zero]
    exact Nat.zero_le _
  · exact Nat.le_of_lt_succ (degree_lt_of_below h hp)

theorem below_degree_succ (p : Terms) : p.Below (p.degree + 1) := by
  by_cases hp : p = 0
  · rw [hp]
    exact below_zero _
  · exact (below_iff_degree hp).2 (Nat.lt_succ_self _)

theorem degree_mapCoefficients_le (f : Rat → Rat) (p : Terms) :
    (p.mapCoefficients f).degree ≤ p.degree :=
  degree_le_of_below (below_mapCoefficients p.below_degree_succ (Nat.succ_pos _) f)

end Terms

end ExactAlgebra
