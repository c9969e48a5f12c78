import ExactAlgebra.Expression.Machine
import ExactAlgebra.Proofs.Expression.Grammar
import ExactAlgebra.Proofs.SparsePolynomial.Power

/-!
Values of expressions as polynomials over the rational numbers. A number and a polynomial without
moduli are both elements of the polynomial ring, and the operators act on them as in the ring, as
long as degrees stay below the limit.
-/

namespace ExactAlgebra

open Polynomial

theorem exponent?_natCast {n : Nat} (h : n < exponentLimit) : exponent? n = some ⟨n, h⟩ :=
  dif_pos ⟨Int.natCast_nonneg n, h⟩

namespace Operand

variable {symbol : Char} {a b : Operand} {f g : ℚ[X]}

/-- The operand is an element of the polynomial ring in a variable, and it has no moduli. -/
structure Represents (symbol : Char) (operand : Operand) (f : ℚ[X]) : Prop where
  terms : (operand.toPolynomial symbol).terms.toPolynomial = f
  setting : (operand.toPolynomial symbol).setting = .plain symbol

theorem represents_number (symbol : Char) (value : Rat) :
    Represents symbol (.number value) (C value) :=
  ⟨SparsePolynomial.toPolynomial_constantIn _ _, rfl⟩

theorem represents_symbol (symbol : Char) :
    Represents symbol (Machine.symbolOperand symbol) X := by
  refine ⟨?_, rfl⟩
  exact (Terms.toPolynomial_single ⟨1, 1⟩).trans (monomial_one_one_eq_X (R := ℚ))

theorem Represents.promote_eq {p : SparsePolynomial} (h : Represents symbol (.polynomial p) f)
    (value : Rat) : promote p.symbol value = promote symbol value := by
  have hsetting : p.setting = .plain symbol := h.setting
  rw [SparsePolynomial.symbol, hsetting]
  rfl

theorem Represents.neg (h : Represents symbol a f) : Represents symbol a.neg (-f) := by
  obtain ⟨rfl, hsetting⟩ := h
  cases a with
  | number value =>
      refine ⟨?_, rfl⟩
      simp [Operand.neg, toPolynomial, promote]
  | polynomial p =>
      refine ⟨?_, hsetting⟩
      simp [Operand.neg, toPolynomial]

theorem Represents.add (ha : Represents symbol a f) (hb : Represents symbol b g) :
    Represents symbol (a.add b) (f + g) := by
  cases a with
  | number value =>
      cases b with
      | number other =>
          obtain ⟨rfl, _⟩ := ha
          obtain ⟨rfl, _⟩ := hb
          refine ⟨?_, rfl⟩
          simp [Operand.add, toPolynomial, promote]
      | polynomial q =>
          have hpromote := hb.promote_eq value
          obtain ⟨rfl, _⟩ := ha
          obtain ⟨rfl, _⟩ := hb
          refine ⟨?_, ?_⟩
          · simp [Operand.add, toPolynomial, hpromote]
          · change (promote q.symbol value).setting = _
            rw [hpromote]
            rfl
  | polynomial p =>
      obtain ⟨rfl, hsetting⟩ := ha
      obtain ⟨rfl, _⟩ := hb
      cases b with
      | number other =>
          refine ⟨?_, hsetting⟩
          simp [Operand.add, toPolynomial, promote, SparsePolynomial.addConstant,
            SparsePolynomial.addTerm, SparsePolynomial.withTerms, zeroExponent]
      | polynomial q =>
          refine ⟨?_, hsetting⟩
          simp [Operand.add, toPolynomial]

theorem Represents.sub (ha : Represents symbol a f) (hb : Represents symbol b g) :
    Represents symbol (a.sub b) (f - g) := by
  cases a with
  | number value =>
      cases b with
      | number other =>
          obtain ⟨rfl, _⟩ := ha
          obtain ⟨rfl, _⟩ := hb
          refine ⟨?_, rfl⟩
          simp [Operand.sub, toPolynomial, promote]
      | polynomial q =>
          have hpromote := hb.promote_eq value
          obtain ⟨rfl, _⟩ := ha
          obtain ⟨rfl, _⟩ := hb
          refine ⟨?_, ?_⟩
          · simp [Operand.sub, toPolynomial, hpromote]
          · change (promote q.symbol value).setting = _
            rw [hpromote]
            rfl
  | polynomial p =>
      obtain ⟨rfl, hsetting⟩ := ha
      obtain ⟨rfl, _⟩ := hb
      cases b with
      | number other =>
          refine ⟨?_, hsetting⟩
          simp [Operand.sub, toPolynomial, promote, SparsePolynomial.subConstant,
            SparsePolynomial.addConstant, SparsePolynomial.addTerm, SparsePolynomial.withTerms,
            zeroExponent, sub_eq_add_neg]
      | polynomial q =>
          refine ⟨?_, hsetting⟩
          simp [Operand.sub, toPolynomial]

theorem Represents.natDegree_eq (h : Represents symbol a f) :
    (a.toPolynomial symbol).degree = f.natDegree := by
  rw [SparsePolynomial.degree, ← Terms.natDegree_toPolynomial, h.terms]

/-- A product with a polynomial exists if its degree is below the limit. -/
theorem exists_mul_polynomial {p q : SparsePolynomial} (hp : Represents symbol (.polynomial p) f)
    (hq : Represents symbol (.polynomial q) g)
    (hdegree : f.natDegree + g.natDegree < exponentLimit) :
    ∃ c, (p.mul q).map Operand.polynomial = .ok c ∧ Represents symbol c (f * g) := by
  rw [← hp.natDegree_eq, ← hq.natDegree_eq] at hdegree
  obtain ⟨product, hproduct, hterms, hsetting, _⟩ :=
    SparsePolynomial.exists_mul_toPolynomial hdegree
  refine ⟨.polynomial product, ?_, ?_, hsetting.trans hp.setting⟩
  · rw [toPolynomial, toPolynomial] at hproduct
    rw [hproduct]
    rfl
  · rw [← hp.terms, ← hq.terms]
    exact hterms

theorem Represents.exists_mul (ha : Represents symbol a f) (hb : Represents symbol b g)
    (hdegree : f.natDegree + g.natDegree < exponentLimit) :
    ∃ c, a.mul b = .ok c ∧ Represents symbol c (f * g) := by
  cases a with
  | number value =>
      cases b with
      | number other =>
          obtain ⟨rfl, _⟩ := ha
          obtain ⟨rfl, _⟩ := hb
          refine ⟨.number (value * other), rfl, ?_, rfl⟩
          simp [toPolynomial, promote]
      | polynomial q =>
          have hpromoted : Represents symbol (.polynomial (promote q.symbol value)) f := by
            rw [hb.promote_eq]
            exact ⟨ha.terms, ha.setting⟩
          exact exists_mul_polynomial hpromoted hb hdegree
  | polynomial p =>
      cases b with
      | number other =>
          obtain ⟨rfl, hsetting⟩ := ha
          obtain ⟨rfl, _⟩ := hb
          refine ⟨.polynomial (p.scale other), rfl, ?_, hsetting⟩
          simp [toPolynomial, promote, SparsePolynomial.scale, SparsePolynomial.mapCoefficients,
            SparsePolynomial.withTerms, Terms.toPolynomial_scale]
      | polynomial q => exact exists_mul_polynomial ha hb hdegree

theorem exponent_number {n : Nat} (h : n < exponentLimit) :
    (Operand.number n).exponent = .ok ⟨n, h⟩ := by
  have hexponent : (if (n : Rat).den = 1 then exponent? (n : Rat).num else none) = some ⟨n, h⟩ :=
    exponent?_natCast h
  change SparsePolynomial.powerExponent (n : Rat) = _
  rw [SparsePolynomial.powerExponent, hexponent]

/-- A power with a natural number as exponent exists if its degree is below the limit. -/
theorem Represents.exists_pow (ha : Represents symbol a f) {n : Nat} (hn : n < exponentLimit)
    (hdegree : f.natDegree * n < exponentLimit) :
    ∃ c, a.pow (.number n) = .ok c ∧ Represents symbol c (f ^ n) := by
  rw [pow, exponent_number hn]
  cases a with
  | number value =>
      obtain ⟨rfl, _⟩ := ha
      refine ⟨.number (value ^ n), rfl, ?_, rfl⟩
      simp [toPolynomial, promote]
  | polynomial p =>
      rw [← ha.natDegree_eq, toPolynomial] at hdegree
      have hsetting : p.setting = .plain symbol := ha.setting
      obtain ⟨power, hpower, hpowerSetting, hterms⟩ :=
        SparsePolynomial.exists_pow (SparsePolynomial.isFree_of_setting_eq hsetting) hdegree
      refine ⟨.polynomial power, ?_, ?_, hpowerSetting.trans hsetting⟩
      · change (p.pow n).map Operand.polynomial = _
        rw [hpower]
        rfl
      · rw [← ha.terms]
        exact hterms

end Operand

namespace Tree

variable {symbol : Char} {left right tree : Tree} {f g : ℚ[X]}

/-- The tree has a value, and it is an element of the polynomial ring in a variable. -/
def Represents (symbol : Char) (tree : Tree) (f : ℚ[X]) : Prop :=
  ∃ value, tree.value symbol = .ok value ∧ value.Represents symbol f

theorem represents_number (symbol : Char) (value : Rat) :
    Represents symbol (.number value) (C value) :=
  ⟨_, rfl, Operand.represents_number symbol value⟩

theorem represents_variable (symbol : Char) : Represents symbol .variable X :=
  ⟨_, rfl, Operand.represents_symbol symbol⟩

theorem Represents.negate (h : Represents symbol tree f) :
    Represents symbol (.negate tree) (-f) := by
  obtain ⟨value, hvalue, hrepresents⟩ := h
  refine ⟨value.neg, ?_, hrepresents.neg⟩
  rw [Tree.value, hvalue]
  rfl

theorem Represents.negations (h : Represents symbol tree f) (signs : Nat) :
    Represents symbol (.negations signs tree) ((-1) ^ signs * f) := by
  induction signs with
  | zero => rwa [pow_zero, one_mul]
  | succ signs ih =>
      rw [pow_succ', mul_assoc, neg_one_mul]
      exact ih.negate

theorem Represents.add (hleft : Represents symbol left f) (hright : Represents symbol right g) :
    Represents symbol (.add left right) (f + g) := by
  obtain ⟨a, ha, hf⟩ := hleft
  obtain ⟨b, hb, hg⟩ := hright
  refine ⟨a.add b, ?_, hf.add hg⟩
  rw [Tree.value, ha, hb]
  rfl

theorem Represents.subtract (hleft : Represents symbol left f)
    (hright : Represents symbol right g) :
    Represents symbol (.subtract left right) (f - g) := by
  obtain ⟨a, ha, hf⟩ := hleft
  obtain ⟨b, hb, hg⟩ := hright
  refine ⟨a.sub b, ?_, hf.sub hg⟩
  rw [Tree.value, ha, hb]
  rfl

theorem Represents.multiply (hleft : Represents symbol left f)
    (hright : Represents symbol right g)
    (hdegree : f.natDegree + g.natDegree < exponentLimit) :
    Represents symbol (.multiply left right) (f * g) := by
  obtain ⟨a, ha, hf⟩ := hleft
  obtain ⟨b, hb, hg⟩ := hright
  obtain ⟨c, hc, hproduct⟩ := hf.exists_mul hg hdegree
  refine ⟨c, ?_, hproduct⟩
  rw [Tree.value, ha, hb]
  exact hc

theorem Represents.power (h : Represents symbol tree f) {n : Nat} (hn : n < exponentLimit)
    (hdegree : f.natDegree * n < exponentLimit) :
    Represents symbol (.power tree (.number n)) (f ^ n) := by
  obtain ⟨a, ha, hf⟩ := h
  obtain ⟨c, hc, hpower⟩ := hf.exists_pow hn hdegree
  refine ⟨c, ?_, hpower⟩
  rw [Tree.value, ha]
  exact hc

end Tree

end ExactAlgebra
