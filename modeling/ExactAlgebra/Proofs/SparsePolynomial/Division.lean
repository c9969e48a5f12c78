import ExactAlgebra.Proofs.SparsePolynomial.Ring
import ExactAlgebra.Proofs.Terms.LongDivision

/-!
Division of polynomials with quotient and remainder. By a nonzero divisor every polynomial is
divided, in one way only: the remainder is zero or of smaller degree than the divisor, and the
product of quotient and divisor exists and differs from the dividend by the remainder. Division
undoes multiplication.
-/

namespace ExactAlgebra.SparsePolynomial

/-- The dividend is a multiple of the divisor and a remainder of smaller degree. The product of the
quotient and the divisor is one of those that exist. -/
structure IsDivision (p d q r : SparsePolynomial) : Prop where
  sum : ∃ product, q.mul d = .ok product ∧ (product + r == p) = true
  small : r.terms = 0 ∨ r.degree < d.degree

section Divisions

variable {p d q r : SparsePolynomial}

theorem IsDivision.symbol_eq (h : IsDivision p d q r) : q.symbol = p.symbol := by
  obtain ⟨product, hproduct, hsum⟩ := h.sum
  have hsetting := (terms_setting_of_mul hproduct).2
  exact (symbol_eq_of_setting_eq hsetting).symm.trans ((beq_iff _ _).1 hsum).1

/-- Whatever divides the dividend in this way is what long division finds. -/
theorem IsDivision.divMod_eq (h : IsDivision p d q r) (hd : d.terms ≠ 0) :
    p.terms.divMod d.terms = (q.terms, r.terms) := by
  obtain ⟨product, hproduct, hsum⟩ := h.sum
  refine Terms.divMod_eq_of_sum hd ?_ h.small
  rw [← ((beq_iff _ _).1 hsum).2, terms_add, (terms_setting_of_mul hproduct).1,
    Terms.toPolynomial_add, Terms.toPolynomial_mul]

/-- The multiple of the divisor has no exponents above those of dividend and remainder. -/
theorem not_productOverflows_quotient (p d : SparsePolynomial) :
    ¬ ProductOverflows (p.quotient d) d := by
  rintro ⟨hq, hd, hlimit⟩
  have hproduct : (p.quotient d).terms * d.terms = p.terms - (p.remainder d).terms := by
    apply Terms.toPolynomial_injective
    rw [Terms.toPolynomial_mul, Terms.toPolynomial_sub, eq_sub_iff_add_eq]
    exact (Terms.toPolynomial_divMod p.terms d.terms).symm
  have hdegree : (p - p.remainder d).degree = (p.quotient d).degree + d.degree := by
    rw [degree, terms_sub, ← hproduct, Terms.degree_mul hq hd]
    rfl
  have hlt := (p - p.remainder d).degree_lt
  omega

theorem isDivision_quotient_remainder (hd : d.terms ≠ 0) :
    IsDivision p d (p.quotient d) (p.remainder d) := by
  refine ⟨?_, Terms.divMod_snd_eq_zero_or_degree_lt hd⟩
  obtain ⟨product, hproduct, hterms, hsetting⟩ :=
    exists_mul_eq_ok (not_productOverflows_quotient p d)
  refine ⟨product, hproduct, beq_of_toPolynomial_eq (symbol_eq_of_setting_eq hsetting) ?_⟩
  rw [terms_add, hterms, Terms.toPolynomial_add, Terms.toPolynomial_mul]
  exact (Terms.toPolynomial_divMod p.terms d.terms).symm

theorem divMod_eq_ok (hd : d.terms ≠ 0) : p.divMod d = .ok (p.quotient d, p.remainder d) :=
  if_neg hd

theorem divMod_eq_error_iff {cause : Error} :
    p.divMod d = .error cause ↔ d.terms = 0 ∧ cause = .divisionByZero := by
  unfold divMod
  split
  · rename_i hzero
    simp [hzero, eq_comm]
  · rename_i hnonzero
    simp [hnonzero]

/-- A product is divided by its right factor without a remainder. -/
theorem isDivision_of_mul {a product : SparsePolynomial} (h : a.mul d = .ok product) :
    IsDivision product d a (zeroIn product.setting) := by
  refine ⟨⟨product, h, beq_of_toPolynomial_eq rfl ?_⟩, .inl rfl⟩
  rw [terms_add, Terms.toPolynomial_add]
  exact add_zero _

end Divisions

/-- Long division is Euclidean division. The only error is a zero divisor. By any other divisor the
division has a quotient and a remainder, whose product and sum exist and give the dividend back, and
there are no others; a remainder is compared by its terms, since a sum takes the symbol of its left
operand. The loop on the stores, which takes whole multiples of the divisor away, comes to its end
there without an exponent beyond the limit, and nowhere else. A product of the divisor is divided
into its other factor and zero. -/
theorem divMod_isDivision (p d : SparsePolynomial) :
    (∀ cause, p.divMod d = .error cause ↔ d.terms = 0 ∧ cause = .divisionByZero) ∧
    (d.terms ≠ 0 → ∃ q r, p.divMod d = .ok (q, r) ∧ IsDivision p d q r ∧
      (∀ q' r', IsDivision p d q' r' → (q' == q) = true ∧ r'.terms = r.terms) ∧
      ∀ last, LongDivision.EndsIn d.terms.store ⟨TermStore.new, p.terms.store⟩ last ↔
        last = ⟨q.terms.store, r.terms.store⟩) ∧
    (∀ a product : SparsePolynomial, d.terms ≠ 0 → a.mul d = .ok product →
      ∃ q r, product.divMod d = .ok (q, r) ∧ (q == a) = true ∧ r.terms = 0) := by
  refine ⟨fun cause => divMod_eq_error_iff, fun hd => ?division,
    fun a product hd hproduct => ?exact⟩
  case division =>
    refine ⟨_, _, divMod_eq_ok hd, isDivision_quotient_remainder hd, ?_, ?_⟩
    · intro q' r' hother
      have hterms := hother.divMod_eq hd
      refine ⟨(beq_iff _ _).2 ⟨hother.symbol_eq, ?_⟩, ?_⟩
      · exact (congrArg Prod.fst hterms).symm
      · exact (congrArg Prod.snd hterms).symm
    · exact fun last => LongDivision.endsIn_iff hd p.below
  case exact =>
    have hdivision := isDivision_of_mul hproduct
    have hterms := hdivision.divMod_eq hd
    refine ⟨_, _, divMod_eq_ok hd, (beq_iff _ _).2 ⟨hdivision.symbol_eq.symm, ?_⟩, ?_⟩
    · exact congrArg Prod.fst hterms
    · exact congrArg Prod.snd hterms

end ExactAlgebra.SparsePolynomial
