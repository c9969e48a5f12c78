import ExactAlgebra.Proofs.Rational.FloorMod
import ExactAlgebra.Proofs.SparsePolynomial.Ring

/-!
Polynomials modulo a number. Two polynomials are congruent if at every exponent their coefficients
differ by an integer multiple of the modulus, which may be negative or a fraction. Reducing the
coefficients picks the one polynomial of a class with all coefficients between zero and the modulus,
so congruent polynomials are those that are reduced to the same one.
-/

namespace ExactAlgebra.SparsePolynomial

/-- At every exponent the coefficients differ by an integer multiple of the modulus. -/
def IsCongruent (modulus : ℚ) (p q : SparsePolynomial) : Prop :=
  ∀ exponent, ∃ k : ℤ, p.terms.coeff exponent - q.terms.coeff exponent = k * modulus

/-- A congruent polynomial in the same setting with all coefficients between zero and the
modulus. -/
structure IsResidue (modulus : ℚ) (p r : SparsePolynomial) : Prop where
  setting : r.setting = p.setting
  congruent : IsCongruent modulus p r
  of_pos : 0 < modulus → ∀ exponent, 0 ≤ r.terms.coeff exponent ∧ r.terms.coeff exponent < modulus
  of_neg : modulus < 0 → ∀ exponent, modulus < r.terms.coeff exponent ∧ r.terms.coeff exponent ≤ 0

variable {modulus : ℚ} {p q r s : SparsePolynomial}

/-- The polynomial with its coefficients reduced by a modulus. -/
def residue (modulus : ℚ) (p : SparsePolynomial) : SparsePolynomial :=
  p.mapCoefficients fun c => floorMod c modulus

theorem coeff_residue (modulus : ℚ) (p : SparsePolynomial) (exponent : ℕ) :
    (residue modulus p).terms.coeff exponent = floorMod (p.terms.coeff exponent) modulus :=
  Terms.coeff_mapCoefficients p.terms (zero_floorMod modulus) exponent

theorem isResidue_residue (modulus : ℚ) (p : SparsePolynomial) :
    IsResidue modulus p (residue modulus p) where
  setting := rfl
  congruent exponent := by
    rw [coeff_residue]
    exact exists_sub_floorMod _ _
  of_pos hpos exponent := by
    rw [coeff_residue]
    exact floorMod_mem_of_pos _ hpos
  of_neg hneg exponent := by
    rw [coeff_residue]
    exact floorMod_mem_of_neg _ hneg

/-- A class has one polynomial with coefficients between zero and the modulus. -/
theorem IsResidue.eq_residue (hmodulus : modulus ≠ 0) (h : IsResidue modulus p r) :
    r = residue modulus p := by
  refine eq_of_toPolynomial_eq ?_ h.setting
  ext exponent
  rw [Terms.coeff_toPolynomial, Terms.coeff_toPolynomial, coeff_residue]
  exact eq_floorMod hmodulus (h.congruent exponent) (fun hpos => h.of_pos hpos exponent)
    fun hneg => h.of_neg hneg exponent

theorem IsCongruent.refl (modulus : ℚ) (p : SparsePolynomial) : IsCongruent modulus p p :=
  fun exponent => ⟨0, by rw [sub_self, Int.cast_zero, zero_mul]⟩

/-- What is reduced is its own residue. -/
theorem residue_residue (hmodulus : modulus ≠ 0) (p : SparsePolynomial) :
    residue modulus (residue modulus p) = residue modulus p := by
  have h := isResidue_residue modulus p
  exact (IsResidue.eq_residue hmodulus ⟨rfl, .refl _ _, h.of_pos, h.of_neg⟩).symm

/-- Polynomials of one variable are reduced to equal ones if they are congruent. -/
theorem residue_beq_iff (hmodulus : modulus ≠ 0) (hsymbol : q.symbol = p.symbol) :
    (residue modulus p == residue modulus q) = true ↔ IsCongruent modulus p q := by
  have hsymbols : (residue modulus p).symbol = (residue modulus q).symbol := hsymbol.symm
  rw [beq_iff, and_iff_right hsymbols, IsCongruent]
  constructor
  · intro hterms exponent
    rw [← floorMod_eq_floorMod_iff _ _ hmodulus, ← coeff_residue, ← coeff_residue, hterms]
  · intro hcongruent
    ext exponent
    rw [coeff_residue, coeff_residue, floorMod_eq_floorMod_iff _ _ hmodulus]
    exact hcongruent exponent

theorem modScalar_eq (hmodulus : modulus ≠ 0) (p : SparsePolynomial) :
    p.modScalar modulus = .ok (residue modulus p) :=
  if_neg hmodulus

/-- Reducing the coefficients by a number, of either sign and maybe a fraction. It fails for the
number zero only. Otherwise it finds the one congruent polynomial with all coefficients between zero
and the number, leaves the store of its terms in the one form that a store has, changes nothing the
second time, and gives polynomials of one variable equal results if and only if they are
congruent. -/
theorem modScalar_isResidue (p : SparsePolynomial) (modulus : ℚ) :
    (p.modScalar modulus = .error .divisionByZero ↔ modulus = 0) ∧
    (modulus ≠ 0 → ∃ r, p.modScalar modulus = .ok r ∧
      IsResidue modulus p r ∧ (∀ other, IsResidue modulus p other → other = r) ∧
      r.terms.store = p.terms.store.mapCoefficients (fun c => floorMod c modulus) ∧
      r.terms.store.Canonical ∧
      r.modScalar modulus = .ok r ∧
      ∀ q, q.symbol = p.symbol → ∃ s, q.modScalar modulus = .ok s ∧
        ((r == s) = true ↔ IsCongruent modulus p q)) := by
  constructor
  · constructor
    · intro h
      by_contra hmodulus
      rw [modScalar_eq hmodulus] at h
      cases h
    · intro h
      exact if_pos h
  · intro hmodulus
    refine ⟨residue modulus p, modScalar_eq hmodulus p, isResidue_residue modulus p,
      fun other hother => hother.eq_residue hmodulus,
      (TermStore.mapCoefficients_eq_store (zero_floorMod modulus) p.terms).symm,
      TermStore.canonical_store _, ?_, ?_⟩
    · rw [modScalar_eq hmodulus, residue_residue hmodulus]
    · intro q hsymbol
      exact ⟨_, modScalar_eq hmodulus q, residue_beq_iff hmodulus hsymbol⟩

end ExactAlgebra.SparsePolynomial
