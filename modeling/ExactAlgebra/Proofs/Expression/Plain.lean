import ExactAlgebra.Proofs.Expression.Operand
import ExactAlgebra.Proofs.Results

/-!
Plain operands: numbers, and polynomials in one variable without moduli. All values of expressions
are plain, and a product or power of plain operands that exists is that of the polynomial ring.
-/

namespace ExactAlgebra.Operand

open Polynomial

variable {symbol : Char} {a b c : Operand} {f g : ℚ[X]}

/-- A product that exists stayed below the limit on exponents. -/
theorem Represents.natDegree_add_lt (ha : Represents symbol a f) (hb : Represents symbol b g)
    (h : a.mul b = .ok c) : f.natDegree + g.natDegree < exponentLimit := by
  have haDegree := (a.toPolynomial symbol).degree_lt
  have hbDegree := (b.toPolynomial symbol).degree_lt
  have hnumber : ∀ value, (toPolynomial symbol (.number value)).degree = 0 :=
    SparsePolynomial.degree_constantIn _
  rw [← ha.natDegree_eq, ← hb.natDegree_eq]
  cases a with
  | number value => rwa [hnumber, Nat.zero_add]
  | polynomial p =>
      cases b with
      | number value => rwa [hnumber, Nat.add_zero]
      | polynomial q =>
          rw [mul] at h
          obtain ⟨product, hproduct, _⟩ := eq_ok_of_map h
          have hfits := SparsePolynomial.not_productOverflows_of_mul hproduct
          by_contra hlimit
          simp only [toPolynomial] at hlimit haDegree hbDegree
          have hp : p.terms ≠ 0 := fun hzero => by
            have hdegree := SparsePolynomial.degree_eq_zero_of_terms hzero
            omega
          have hq : q.terms ≠ 0 := fun hzero => by
            have hdegree := SparsePolynomial.degree_eq_zero_of_terms hzero
            omega
          exact hfits ⟨hp, hq, Nat.le_of_not_lt hlimit⟩

theorem Represents.mul (ha : Represents symbol a f) (hb : Represents symbol b g)
    (h : a.mul b = .ok c) : Represents symbol c (f * g) := by
  obtain ⟨product, hproduct, hrepresents⟩ := ha.exists_mul hb (ha.natDegree_add_lt hb h)
  rw [h] at hproduct
  cases hproduct
  exact hrepresents

theorem exists_exponent_of_pow (h : a.pow b = .ok c) : ∃ n, b.exponent = .ok n := by
  rw [pow] at h
  obtain ⟨n, hn, _⟩ := eq_ok_of_bind h
  exact ⟨n, hn⟩

/-- A power that exists stayed below the limit on exponents. -/
theorem Represents.natDegree_mul_lt (ha : Represents symbol a f) {n : Exponent}
    (hn : b.exponent = .ok n) (h : a.pow b = .ok c) : f.natDegree * n.val < exponentLimit := by
  rw [← ha.natDegree_eq]
  cases a with
  | number value =>
      have hnumber : (toPolynomial symbol (.number value)).degree = 0 :=
        SparsePolynomial.degree_constantIn _ value
      rw [hnumber, Nat.zero_mul]
      decide
  | polynomial p =>
      have hfree := SparsePolynomial.isFree_of_setting_eq ha.setting
      rw [toPolynomial]
      by_contra hlimit
      have hpow : p.pow n.val = .error (.overflow .polynomialDegree) :=
        (SparsePolynomial.pow_eq_error_iff hfree).2 ⟨Nat.le_of_not_lt hlimit, rfl⟩
      rw [pow, hn] at h
      change (p.pow n.val).map Operand.polynomial = .ok c at h
      rw [hpow] at h
      cases h

theorem Represents.pow (ha : Represents symbol a f) {n : Exponent} (hn : b.exponent = .ok n)
    (h : a.pow b = .ok c) : Represents symbol c (f ^ n.val) := by
  obtain ⟨power, hpower, hrepresents⟩ := ha.exists_pow n.isLt (ha.natDegree_mul_lt hn h)
  have hsame : a.pow b = a.pow (.number n.val) := by
    rw [Operand.pow, Operand.pow, hn, exponent_number n.isLt]
  rw [hsame, hpower] at h
  cases h
  exact hrepresents

/-- The operand is a number or a polynomial in the variable without moduli. -/
def IsPlain (symbol : Char) (operand : Operand) : Prop :=
  ∃ f, Represents symbol operand f

theorem IsPlain.setting (h : IsPlain symbol a) :
    (a.toPolynomial symbol).setting = .plain symbol := by
  obtain ⟨_, hrepresents⟩ := h
  exact hrepresents.setting

theorem isPlain_of_setting (h : (a.toPolynomial symbol).setting = .plain symbol) :
    IsPlain symbol a :=
  ⟨_, rfl, h⟩

theorem isPlain_number (symbol : Char) (value : ℚ) : IsPlain symbol (.number value) :=
  ⟨_, represents_number symbol value⟩

theorem isPlain_symbol (symbol : Char) : IsPlain symbol (Machine.symbolOperand symbol) :=
  ⟨_, represents_symbol symbol⟩

theorem IsPlain.neg (h : IsPlain symbol a) : IsPlain symbol a.neg := by
  obtain ⟨_, hf⟩ := h
  exact ⟨_, hf.neg⟩

/-- A remainder is in the setting of the dividend. -/
theorem setting_of_modOperand {p result : SparsePolynomial}
    (h : modOperand p a = .ok result) : result.setting = p.setting := by
  rw [modOperand] at h
  split at h
  · rw [SparsePolynomial.modScalar] at h
    split at h
    · cases h
    · cases h
      rfl
  · rw [SparsePolynomial.mod, SparsePolynomial.divMod] at h
    split at h
    · cases h
    · cases h
      rfl

theorem isPlain_of_map_modOperand {p : SparsePolynomial} (hp : p.setting = .plain symbol)
    (h : (modOperand p a).map Operand.polynomial = .ok c) : IsPlain symbol c := by
  obtain ⟨result, hresult, rfl⟩ := eq_ok_of_map h
  exact isPlain_of_setting ((setting_of_modOperand hresult).trans hp)

theorem IsPlain.mod (ha : IsPlain symbol a) (hb : IsPlain symbol b) (h : a.mod b = .ok c) :
    IsPlain symbol c := by
  cases a with
  | number value =>
      cases b with
      | number other =>
          rw [Operand.mod] at h
          split at h
          · cases h
          · cases h
            exact isPlain_number symbol _
      | polynomial q =>
          obtain ⟨_, hq⟩ := hb
          refine isPlain_of_map_modOperand ?_ h
          rw [hq.promote_eq]
          rfl
  | polynomial p => exact isPlain_of_map_modOperand ha.setting h

/-- The value of an operator is plain if its operands are. -/
theorem IsPlain.value {operator : Operator} (ha : IsPlain symbol a) (hb : IsPlain symbol b)
    (h : operator.value a b = .ok c) : IsPlain symbol c := by
  obtain ⟨f, hf⟩ := ha
  obtain ⟨g, hg⟩ := hb
  cases operator with
  | add =>
      cases h
      exact ⟨_, hf.add hg⟩
  | subtract =>
      cases h
      exact ⟨_, hf.sub hg⟩
  | multiply => exact ⟨_, hf.mul hg h⟩
  | remainder => exact IsPlain.mod ⟨f, hf⟩ ⟨g, hg⟩ h
  | power =>
      obtain ⟨n, hn⟩ := exists_exponent_of_pow h
      exact ⟨_, hf.pow hn h⟩
  | negate =>
      cases h
      exact ⟨_, hg.neg⟩

end ExactAlgebra.Operand
