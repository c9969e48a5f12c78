import ExactAlgebra.Proofs.Terms.Accumulation
import ExactAlgebra.SparsePolynomial.Arithmetic
import Mathlib.Algebra.Polynomial.Coeff

/-!
Polynomials as a ring. Sums, differences and negations act on the coefficients one by one. A product
exists unless its degree reaches the limit on exponents, and its coefficients are the convolution
of those of the factors. All of them are what adding terms one by one to a store leaves. As equal
coefficients mean equal terms, the laws of commutative rings hold for the results themselves, up to
the equality that ignores moduli.
-/

namespace ExactAlgebra.SparsePolynomial

/-- The degree of the product reaches the limit on exponents. -/
def ProductOverflows (p q : SparsePolynomial) : Prop :=
  p.terms ≠ 0 ∧ q.terms ≠ 0 ∧ exponentLimit ≤ p.degree + q.degree

theorem mul_eq_overflow_iff (p q : SparsePolynomial) :
    p.mul q = .error (.overflow .polynomialDegree) ↔ ProductOverflows p q := by
  unfold mul ProductOverflows
  split
  · rename_i h
    constructor
    · intro hoverflow
      cases hoverflow
    · rintro ⟨hp, hq, hlimit⟩
      rcases h with h | h | h
      · exact absurd h hp
      · exact absurd h hq
      · omega
  · rename_i h
    simp only [not_or, Nat.not_lt] at h
    exact ⟨fun _ => h, fun _ => rfl⟩

theorem exists_mul_eq_ok {p q : SparsePolynomial} (h : ¬ ProductOverflows p q) :
    ∃ product, p.mul q = .ok product ∧ product.terms = p.terms * q.terms ∧
      product.setting = p.setting := by
  cases hmul : p.mul q with
  | ok product =>
      obtain ⟨hterms, hsetting⟩ := terms_setting_of_mul hmul
      exact ⟨product, rfl, hterms, hsetting⟩
  | error cause =>
      unfold mul at hmul
      split at hmul
      · cases hmul
      · rename_i hlimit
        simp only [not_or, Nat.not_lt] at hlimit
        exact absurd hlimit h

/-- The only failure of a product is an overflow of its degree. -/
theorem mul_eq_error_iff {p q : SparsePolynomial} {cause : Error} :
    p.mul q = .error cause ↔ ProductOverflows p q ∧ cause = .overflow .polynomialDegree := by
  constructor
  · intro h
    have hoverflow : ProductOverflows p q := by
      by_contra hfits
      obtain ⟨product, hproduct, -⟩ := exists_mul_eq_ok hfits
      rw [hproduct] at h
      cases h
    rw [(mul_eq_overflow_iff p q).2 hoverflow] at h
    exact ⟨hoverflow, (Except.error.inj h).symm⟩
  · rintro ⟨hoverflow, rfl⟩
    exact (mul_eq_overflow_iff p q).2 hoverflow

theorem degree_eq_zero_of_terms {p : SparsePolynomial} (h : p.terms = 0) : p.degree = 0 := by
  rw [SparsePolynomial.degree, h, Terms.degree_zero]

theorem not_productOverflows_of_mul {p q product : SparsePolynomial}
    (h : p.mul q = .ok product) : ¬ ProductOverflows p q := by
  intro hoverflow
  rw [(mul_eq_overflow_iff p q).2 hoverflow] at h
  cases h

theorem not_productOverflows_of_lt {p q : SparsePolynomial}
    (h : p.degree + q.degree < exponentLimit) : ¬ ProductOverflows p q := by
  rintro ⟨_, _, hlimit⟩
  omega

/-- What a polynomial has to be so that it is the product of two others. -/
structure IsProduct (p q product : SparsePolynomial) : Prop where
  setting : product.setting = p.setting
  accumulated : product.terms.store =
    TermStore.accumulateProducts p.terms.store.entries q.terms.store.entries
  coeff : ∀ exponent, product.terms.coeff exponent =
    ∑ split ∈ Finset.HasAntidiagonal.antidiagonal exponent,
      p.terms.coeff split.1 * q.terms.coeff split.2
  degree : p.terms ≠ 0 → q.terms ≠ 0 → product.degree = p.degree + q.degree
  exponents : p.terms ≠ 0 → q.terms ≠ 0 → ∀ a ∈ p.terms.stored, ∀ b ∈ q.terms.stored,
    a.exponent + b.exponent < exponentLimit

theorem exponent_le_degree {terms : Terms} (h : terms ≠ 0) {t : Term} (ht : t ∈ terms.stored) :
    t.exponent ≤ terms.degree := by
  rw [Terms.stored_of_ne_zero h] at ht
  have hbelow : terms.Below (terms.degree + 1) :=
    (Terms.below_iff_degree h).2 (Nat.lt_succ_self _)
  exact Nat.le_of_lt_succ (hbelow t ht)

theorem coeff_mul_eq_sum (p q : Terms) (exponent : Nat) :
    (p * q).coeff exponent =
      ∑ split ∈ Finset.HasAntidiagonal.antidiagonal exponent,
        p.coeff split.1 * q.coeff split.2 := by
  rw [← Terms.coeff_toPolynomial, Terms.toPolynomial_mul, Polynomial.coeff_mul]
  apply Finset.sum_congr rfl
  intro split _
  rw [Terms.coeff_toPolynomial, Terms.coeff_toPolynomial]

theorem isProduct_of_mul {p q product : SparsePolynomial} (h : p.mul q = .ok product) :
    IsProduct p q product := by
  obtain ⟨hterms, hsetting⟩ := terms_setting_of_mul h
  have hfits := not_productOverflows_of_mul h
  refine ⟨hsetting, ?_, ?_, ?_, ?_⟩
  · rw [hterms, TermStore.accumulateProducts_eq_store_mul]
  · intro exponent
    rw [hterms, coeff_mul_eq_sum]
  · intro hp hq
    rw [degree, hterms, Terms.degree_mul hp hq]
    rfl
  · intro hp hq a ha b hb
    have haDegree := exponent_le_degree hp ha
    have hbDegree := exponent_le_degree hq hb
    by_contra hlimit
    apply hfits
    refine ⟨hp, hq, ?_⟩
    simp only [degree]
    omega

/-- The stores that sums, differences and negations leave when they take the terms of the right
operand one by one. -/
structure SumsAccumulate (p q : SparsePolynomial) : Prop where
  add : (p + q).terms.store = TermStore.addEach id p.terms.store q.terms.store.entries
  sub : (p - q).terms.store = TermStore.addEach (fun c => -c) p.terms.store q.terms.store.entries
  neg : (-p).terms.store = p.terms.store.mapCoefficients (fun c => -c)

theorem sumsAccumulate (p q : SparsePolynomial) : SumsAccumulate p q where
  add := (TermStore.addEach_eq_store_add p.terms q.terms).symm
  sub := (TermStore.addEach_eq_store_sub p.terms q.terms).symm
  neg := (TermStore.mapCoefficients_eq_store Rat.neg_zero p.terms).symm

/-- Polynomials of one variable are equal when they are equal as polynomials over the rational
numbers. -/
theorem beq_of_toPolynomial_eq {p q : SparsePolynomial} (hsymbol : p.symbol = q.symbol)
    (h : p.terms.toPolynomial = q.terms.toPolynomial) : (p == q) = true :=
  (beq_iff p q).2 ⟨hsymbol, Terms.toPolynomial_injective h⟩

/-- In one setting a polynomial is determined by its value in the polynomial ring. -/
theorem eq_of_toPolynomial_eq {p q : SparsePolynomial}
    (hterms : p.terms.toPolynomial = q.terms.toPolynomial) (hsetting : p.setting = q.setting) :
    p = q := by
  obtain ⟨terms, setting, _⟩ := p
  obtain ⟨_, _, _⟩ := q
  obtain rfl : terms = _ := Terms.toPolynomial_injective hterms
  obtain rfl : setting = _ := hsetting
  rfl

theorem symbol_eq_of_setting_eq {p q : SparsePolynomial} (h : p.setting = q.setting) :
    p.symbol = q.symbol :=
  congrArg Setting.symbol h

/-- The laws of commutative rings for three polynomials of one variable, of which the second lends
its setting to the constants. A law about products speaks of products that exist. -/
structure RingLaws (p q s : SparsePolynomial) : Prop where
  add_comm : (p + q == q + p) = true
  add_assoc : (p + q + s == p + (q + s)) = true
  add_zero : (p + zeroIn q.setting == p) = true
  sub_self : (p - p == zeroIn q.setting) = true
  add_neg_self : (p + -p == zeroIn q.setting) = true
  sub_eq_add_neg : (p - q == p + -q) = true
  mul_one : ∃ product, p.mul (constantIn q.setting 1) = .ok product ∧ (product == p) = true
  mul_comm : ∀ pq, p.mul q = .ok pq → ∃ qp, q.mul p = .ok qp ∧ (pq == qp) = true
  mul_assoc : ∀ pq qs left, p.mul q = .ok pq → q.mul s = .ok qs → pq.mul s = .ok left →
    ∃ right, p.mul qs = .ok right ∧ (left == right) = true
  mul_add : ∀ pq ps, p.mul q = .ok pq → p.mul s = .ok ps →
    ∃ whole, p.mul (q + s) = .ok whole ∧ (whole == pq + ps) = true
  add_mul : ∀ qp sp, q.mul p = .ok qp → s.mul p = .ok sp →
    ∃ whole, (q + s).mul p = .ok whole ∧ (whole == qp + sp) = true

theorem productOverflows_comm (p q : SparsePolynomial) :
    ProductOverflows p q ↔ ProductOverflows q p := by
  unfold ProductOverflows
  constructor <;> exact fun ⟨hp, hq, hlimit⟩ => ⟨hq, hp, by omega⟩

/-- The product in the other order exists as well, and has the same terms. -/
theorem exists_mul_comm {p q pq : SparsePolynomial} (hsymbol : q.symbol = p.symbol)
    (h : p.mul q = .ok pq) : ∃ qp, q.mul p = .ok qp ∧ (pq == qp) = true := by
  have hfits : ¬ ProductOverflows q p :=
    fun hoverflow => not_productOverflows_of_mul h ((productOverflows_comm q p).1 hoverflow)
  obtain ⟨qp, hqp, hterms, hsetting⟩ := exists_mul_eq_ok hfits
  obtain ⟨hpqTerms, hpqSetting⟩ := terms_setting_of_mul h
  refine ⟨qp, hqp, beq_of_toPolynomial_eq ?_ ?_⟩
  · rw [symbol_eq_of_setting_eq hpqSetting, symbol_eq_of_setting_eq hsetting, hsymbol]
  · rw [hpqTerms, hterms, Terms.toPolynomial_mul, Terms.toPolynomial_mul, mul_comm]

/-- One product of the two bracketings is the other, once the inner products exist. -/
theorem exists_mul_assoc {p q s pq qs left : SparsePolynomial} (hpq : p.mul q = .ok pq)
    (hqs : q.mul s = .ok qs) (hleft : pq.mul s = .ok left) :
    ∃ right, p.mul qs = .ok right ∧ (left == right) = true := by
  obtain ⟨hpqTerms, hpqSetting⟩ := terms_setting_of_mul hpq
  obtain ⟨hqsTerms, _⟩ := terms_setting_of_mul hqs
  obtain ⟨hleftTerms, hleftSetting⟩ := terms_setting_of_mul hleft
  have hfits : ¬ ProductOverflows p qs := by
    rintro ⟨hp, hqsNonzero, hlimit⟩
    have hproduct : q.terms.toPolynomial * s.terms.toPolynomial ≠ 0 := by
      rw [← Terms.toPolynomial_mul, ← hqsTerms]
      exact fun h => hqsNonzero ((Terms.toPolynomial_eq_zero_iff _).1 h)
    have hq : q.terms ≠ 0 := fun h => left_ne_zero_of_mul hproduct (by simp [h])
    have hs : s.terms ≠ 0 := fun h => right_ne_zero_of_mul hproduct (by simp [h])
    have hpqDegree := (isProduct_of_mul hpq).degree hp hq
    have hqsDegree := (isProduct_of_mul hqs).degree hq hs
    have hpqNonzero : pq.terms ≠ 0 := by
      intro h
      rw [hpqTerms, ← Terms.toPolynomial_eq_zero_iff, Terms.toPolynomial_mul, mul_eq_zero,
        Terms.toPolynomial_eq_zero_iff, Terms.toPolynomial_eq_zero_iff] at h
      exact h.elim hp hq
    apply not_productOverflows_of_mul hleft
    refine ⟨hpqNonzero, hs, ?_⟩
    omega
  obtain ⟨right, hright, hrightTerms, hrightSetting⟩ := exists_mul_eq_ok hfits
  refine ⟨right, hright, beq_of_toPolynomial_eq ?_ ?_⟩
  · exact symbol_eq_of_setting_eq (by rw [hleftSetting, hpqSetting, hrightSetting])
  · rw [hleftTerms, hpqTerms, hrightTerms, hqsTerms]
    simp only [Terms.toPolynomial_mul]
    rw [mul_assoc]

theorem degree_add_le (p q : SparsePolynomial) : (p + q).degree ≤ max p.degree q.degree := by
  simp only [degree, terms_add]
  rw [← Terms.natDegree_toPolynomial, Terms.toPolynomial_add, ← Terms.natDegree_toPolynomial,
    ← Terms.natDegree_toPolynomial]
  exact Polynomial.natDegree_add_le _ _

/-- A sum can be multiplied when its summands can. -/
theorem not_productOverflows_add {p q s : SparsePolynomial} (hq : ¬ ProductOverflows p q)
    (hs : ¬ ProductOverflows p s) : ¬ ProductOverflows p (q + s) := by
  rintro ⟨hp, hsum, hlimit⟩
  have hdegree := degree_add_le q s
  by_cases hqZero : q.terms = 0
  · have hterms : (q + s).terms = s.terms := by
      apply Terms.toPolynomial_injective
      rw [terms_add, Terms.toPolynomial_add, hqZero, Terms.toPolynomial_zero, zero_add]
    exact hs ⟨hp, hterms ▸ hsum, by rwa [degree, degree, hterms] at hlimit⟩
  · by_cases hsZero : s.terms = 0
    · have hterms : (q + s).terms = q.terms := by
        apply Terms.toPolynomial_injective
        rw [terms_add, Terms.toPolynomial_add, hsZero, Terms.toPolynomial_zero, add_zero]
      exact hq ⟨hp, hqZero, by rwa [degree, degree, hterms] at hlimit⟩
    · have hqBound : p.degree + q.degree < exponentLimit :=
        Nat.lt_of_not_le fun h => hq ⟨hp, hqZero, h⟩
      have hsBound : p.degree + s.degree < exponentLimit :=
        Nat.lt_of_not_le fun h => hs ⟨hp, hsZero, h⟩
      omega

theorem exists_mul_add {p q s pq ps : SparsePolynomial} (hpq : p.mul q = .ok pq)
    (hps : p.mul s = .ok ps) :
    ∃ whole, p.mul (q + s) = .ok whole ∧ (whole == pq + ps) = true := by
  obtain ⟨hpqTerms, hpqSetting⟩ := terms_setting_of_mul hpq
  obtain ⟨hpsTerms, _⟩ := terms_setting_of_mul hps
  obtain ⟨whole, hwhole, hterms, hsetting⟩ := exists_mul_eq_ok
    (not_productOverflows_add (not_productOverflows_of_mul hpq) (not_productOverflows_of_mul hps))
  refine ⟨whole, hwhole, beq_of_toPolynomial_eq ?_ ?_⟩
  · exact symbol_eq_of_setting_eq (by rw [hsetting, setting_add, hpqSetting])
  · rw [hterms, terms_add, terms_add, hpqTerms, hpsTerms]
    simp only [Terms.toPolynomial_mul, Terms.toPolynomial_add]
    rw [mul_add]

theorem exists_add_mul {p q s qp sp : SparsePolynomial} (hqp : q.mul p = .ok qp)
    (hsp : s.mul p = .ok sp) :
    ∃ whole, (q + s).mul p = .ok whole ∧ (whole == qp + sp) = true := by
  obtain ⟨hqpTerms, hqpSetting⟩ := terms_setting_of_mul hqp
  obtain ⟨hspTerms, _⟩ := terms_setting_of_mul hsp
  have hq : ¬ ProductOverflows p q :=
    fun h => not_productOverflows_of_mul hqp ((productOverflows_comm p q).1 h)
  have hs : ¬ ProductOverflows p s :=
    fun h => not_productOverflows_of_mul hsp ((productOverflows_comm p s).1 h)
  have hfits : ¬ ProductOverflows (q + s) p :=
    fun h => not_productOverflows_add hq hs ((productOverflows_comm (q + s) p).1 h)
  obtain ⟨whole, hwhole, hterms, hsetting⟩ := exists_mul_eq_ok hfits
  refine ⟨whole, hwhole, beq_of_toPolynomial_eq ?_ ?_⟩
  · exact symbol_eq_of_setting_eq (by rw [hsetting, setting_add, setting_add, hqpSetting])
  · rw [hterms, terms_add, terms_add, hqpTerms, hspTerms]
    simp only [Terms.toPolynomial_mul, Terms.toPolynomial_add]
    rw [add_mul]

@[simp] theorem toPolynomial_constantIn (setting : Setting) (value : Rat) :
    (constantIn setting value).terms.toPolynomial = Polynomial.C value :=
  Terms.toPolynomial_constant value

@[simp] theorem degree_constantIn (setting : Setting) (value : Rat) :
    (constantIn setting value).degree = 0 := by
  rw [degree, ← Terms.natDegree_toPolynomial, toPolynomial_constantIn, Polynomial.natDegree_C]

@[simp] theorem toPolynomial_addConstant (p : SparsePolynomial) (value : Rat) :
    (p.addConstant value).terms.toPolynomial = p.terms.toPolynomial + Polynomial.C value :=
  Terms.toPolynomial_accumulate p.terms ⟨value, 0⟩

@[simp] theorem degree_addConstant (p : SparsePolynomial) (value : Rat) :
    (p.addConstant value).degree = p.degree := by
  rw [degree, ← Terms.natDegree_toPolynomial, toPolynomial_addConstant, Polynomial.natDegree_add_C,
    Terms.natDegree_toPolynomial, degree]

theorem exists_mul_one (p : SparsePolynomial) (setting : Setting) :
    ∃ product, p.mul (constantIn setting 1) = .ok product ∧ (product == p) = true := by
  have hlt : p.degree + (constantIn setting 1).degree < exponentLimit := by
    rw [degree_constantIn]
    exact p.degree_lt
  obtain ⟨product, hproduct, hterms, hsetting⟩ :=
    exists_mul_eq_ok (not_productOverflows_of_lt hlt)
  refine ⟨product, hproduct, beq_of_toPolynomial_eq (symbol_eq_of_setting_eq hsetting) ?_⟩
  rw [hterms, Terms.toPolynomial_mul, toPolynomial_constantIn, Polynomial.C_1, mul_one]

theorem ringLaws {p q s : SparsePolynomial} (hq : q.symbol = p.symbol) :
    RingLaws p q s where
  add_comm := by
    refine beq_of_toPolynomial_eq hq.symm ?_
    rw [terms_add, terms_add, Terms.toPolynomial_add, Terms.toPolynomial_add]
    exact add_comm _ _
  add_assoc := by
    refine beq_of_toPolynomial_eq rfl ?_
    simp only [terms_add, Terms.toPolynomial_add]
    exact add_assoc _ _ _
  add_zero := by
    refine beq_of_toPolynomial_eq rfl ?_
    rw [terms_add, Terms.toPolynomial_add]
    exact add_zero _
  sub_self := by
    refine beq_of_toPolynomial_eq hq.symm ?_
    rw [terms_sub, Terms.toPolynomial_sub]
    exact sub_self _
  add_neg_self := by
    refine beq_of_toPolynomial_eq hq.symm ?_
    rw [terms_add, terms_neg, Terms.toPolynomial_add, Terms.toPolynomial_neg]
    exact add_neg_cancel _
  sub_eq_add_neg := by
    refine beq_of_toPolynomial_eq rfl ?_
    rw [terms_sub, terms_add, terms_neg, Terms.sub_def]
  mul_one := exists_mul_one p q.setting
  mul_comm := fun _ h => exists_mul_comm hq h
  mul_assoc := fun _ _ _ hpq hqs hleft => exists_mul_assoc hpq hqs hleft
  mul_add := fun _ _ hpq hps => exists_mul_add hpq hps
  add_mul := fun _ _ hqp hsp => exists_add_mul hqp hsp

/-- Arithmetic of polynomials is the arithmetic of the polynomial ring over the rational numbers.
The only failure is that of a product whose degree reaches the limit on exponents. -/
theorem arithmetic_eq_ring_arithmetic (p q : SparsePolynomial) :
    (∀ exponent, (p + q).terms.coeff exponent =
      p.terms.coeff exponent + q.terms.coeff exponent) ∧
    (∀ exponent, (p - q).terms.coeff exponent =
      p.terms.coeff exponent - q.terms.coeff exponent) ∧
    (∀ exponent, (-p).terms.coeff exponent = -p.terms.coeff exponent) ∧
    SumsAccumulate p q ∧
    (p.mul q = .error (.overflow .polynomialDegree) ↔ ProductOverflows p q) ∧
    (¬ ProductOverflows p q → ∃ product, p.mul q = .ok product ∧ IsProduct p q product) ∧
    (q.symbol = p.symbol → ∀ s : SparsePolynomial, RingLaws p q s) := by
  refine ⟨?_, ?_, ?_, sumsAccumulate p q, mul_eq_overflow_iff p q, ?_, ?_⟩
  · intro exponent
    rw [terms_add, Terms.coeff_add]
  · intro exponent
    rw [terms_sub, Terms.coeff_sub]
  · intro exponent
    rw [terms_neg, Terms.coeff_neg]
  · intro hfits
    obtain ⟨product, hproduct, _, _⟩ := exists_mul_eq_ok hfits
    exact ⟨product, hproduct, isProduct_of_mul hproduct⟩
  · intro hq s
    exact ringLaws hq

end ExactAlgebra.SparsePolynomial
