import ExactAlgebra.Proofs.DenseMatrix.Determinant
import ExactAlgebra.Proofs.Power
import Mathlib.LinearAlgebra.Matrix.ZPow

/-!
Powers of rational matrices. Repeated squaring computes the product of as many copies as the
exponent says, of the matrix or of its inverse, because the entries of each product that it forms
are those of a power. The exponents of an invertible matrix add up in products, and opposite
exponents give inverse powers.
-/

namespace ExactAlgebra.DenseMatrix

section Products

variable {α : Type} [CommRing α] {n : ℕ} {a b c : DenseMatrix α} {x y : Matrix (Fin n) (Fin n) α}

/-- The square matrix has the given entries, and no others. -/
structure HasEntries (a : DenseMatrix α) (x : Matrix (Fin n) (Fin n) α) : Prop where
  dimension : a.dimension = (n, n)
  entries : a.entries n n = x

/-- The product of a number of copies of a matrix, multiplied one after the other. -/
def repeatedProduct (a : DenseMatrix α) : ℕ → Except Error (DenseMatrix α)
  | 0 => .ok (identity a.rows)
  | count + 1 => do
      let product ← a.repeatedProduct count
      product.mul a

theorem HasEntries.eq (ha : a.HasEntries x) (hb : b.HasEntries x) : a = b :=
  eq_of_entries_eq ha.dimension hb.dimension (ha.entries.trans hb.entries.symm)

theorem hasEntries_identity (n : ℕ) :
    (identity n : DenseMatrix α).HasEntries (1 : Matrix (Fin n) (Fin n) α) :=
  ⟨rfl, entries_identity n⟩

theorem hasEntries_of_isSquare (hsquare : a.isSquare) :
    a.HasEntries (a.entries a.rows a.rows) :=
  ⟨dimension_of_isSquare hsquare, rfl⟩

theorem HasEntries.exists_mul (ha : a.HasEntries x) (hb : b.HasEntries y) :
    ∃ product, a.mul b = .ok product ∧ product.HasEntries (x * y) := by
  obtain ⟨product, hmul, hdimension, hentries⟩ := DenseMatrix.exists_mul ha.dimension hb.dimension
  rw [ha.entries, hb.entries] at hentries
  exact ⟨product, hmul, hdimension, hentries⟩

theorem HasEntries.mul (ha : a.HasEntries x) (hb : b.HasEntries y) (hmul : a.mul b = .ok c) :
    c.HasEntries (x * y) := by
  obtain ⟨product, hproduct, hentries⟩ := ha.exists_mul hb
  obtain rfl : product = c := Except.ok.inj (hproduct.symm.trans hmul)
  exact hentries

theorem multipliesAs_mul (n : ℕ) :
    MultipliesAs mul (HasEntries : DenseMatrix α → Matrix (Fin n) (Fin n) α → Prop) :=
  fun _ _ _ _ _ ha hb hmul => ha.mul hb hmul

/-- One copy after the other has the entries of the power. -/
theorem HasEntries.exists_repeatedProduct (ha : a.HasEntries x) (count : ℕ) :
    ∃ product, a.repeatedProduct count = .ok product ∧ product.HasEntries (x ^ count) := by
  induction count with
  | zero =>
      obtain rfl : n = a.rows := (congrArg Prod.fst ha.dimension).symm
      exact ⟨identity a.rows, rfl, by rw [pow_zero]; exact hasEntries_identity a.rows⟩
  | succ count ih =>
      obtain ⟨product, hproduct, hentries⟩ := ih
      obtain ⟨next, hnext, hnextEntries⟩ := hentries.exists_mul ha
      refine ⟨next, ?_, pow_succ x count ▸ hnextEntries⟩
      rw [repeatedProduct, hproduct]
      exact hnext

/-- Repeated squaring has the entries of the power. -/
theorem HasEntries.exists_powerBy (ha : a.HasEntries x) (exponent : ℕ) :
    ∃ power, powerBy DenseMatrix.mul (identity n) a exponent = .ok power ∧
      power.HasEntries (x ^ exponent) := by
  let Small : DenseMatrix α → Prop := fun m => ∃ y : Matrix (Fin n) (Fin n) α, m.HasEntries y
  have hclosed : ∀ a b, Small a → Small b → ∃ c, DenseMatrix.mul a b = .ok c ∧ Small c := by
    rintro a b ⟨y, hy⟩ ⟨z, hz⟩
    obtain ⟨product, hmul, hproduct⟩ := hy.exists_mul hz
    exact ⟨product, hmul, y * z, hproduct⟩
  obtain ⟨power, hpower⟩ :=
    exists_powerBy_of_closed hclosed ⟨1, hasEntries_identity n⟩ ⟨x, ha⟩ exponent
  refine ⟨power, hpower, ?_⟩
  have hentries := (multipliesAs_mul n).powerBy (hasEntries_identity n) ha hpower
  rwa [one_mul] at hentries

/-- Repeated squaring computes the product of the copies. -/
theorem HasEntries.repeatedProduct_eq_powerBy (ha : a.HasEntries x) (exponent : ℕ) :
    a.repeatedProduct exponent = powerBy DenseMatrix.mul (identity n) a exponent := by
  obtain ⟨product, hproduct, hentries⟩ := ha.exists_repeatedProduct exponent
  obtain ⟨power, hpower, hpowerEntries⟩ := ha.exists_powerBy exponent
  rw [hproduct, hpower, hentries.eq hpowerEntries]

end Products

section Powers

variable {n : ℕ} {a b : DenseMatrix ℚ} {x : Matrix (Fin n) (Fin n) ℚ} {exponent : ℤ}

/-- The matrix is square and has a nonzero determinant. -/
def IsInvertible (a : DenseMatrix ℚ) : Prop :=
  ∃ d, a.determinant = .ok d ∧ d ≠ 0

theorem IsInvertible.hasEntries (h : a.IsInvertible) :
    a.HasEntries (a.entries a.rows a.rows) ∧ (a.entries a.rows a.rows).det ≠ 0 := by
  obtain ⟨d, hdeterminant, hne⟩ := h
  obtain ⟨hsquare, rfl⟩ := determinant_eq_ok_iff.1 hdeterminant
  exact ⟨hasEntries_of_isSquare hsquare, hne⟩

theorem HasEntries.isSquare (ha : a.HasEntries x) : a.isSquare := by
  obtain ⟨hrows, hcolumns⟩ := Prod.mk.inj ha.dimension
  exact beq_iff_eq.2 (hrows.trans hcolumns.symm)

/-- The inverse has the entries of the inverse matrix. -/
theorem HasEntries.exists_inverse (ha : a.HasEntries x) (hdet : x.det ≠ 0) :
    ∃ b, a.inverse = .ok b ∧ b.HasEntries x⁻¹ := by
  obtain rfl : n = a.rows := (congrArg Prod.fst ha.dimension).symm
  obtain rfl := ha.entries
  obtain ⟨b, hinverse, hdimension, hentries⟩ := DenseMatrix.exists_inverse ha.isSquare hdet
  refine ⟨b, hinverse, hdimension, ?_⟩
  rw [hentries, Matrix.inv_def, Ring.inverse_eq_inv', det]

theorem pow_of_not_isSquare (hsquare : ¬ a.isSquare) (exponent : ℤ) :
    a.pow exponent = .error (.notSquare a.rows a.columns) := by
  have hrequire : a.requireSquare = .error (.notSquare a.rows a.columns) := if_neg hsquare
  rw [pow, hrequire]
  rfl

theorem HasEntries.pow_eq (ha : a.HasEntries x) (exponent : ℤ) :
    a.pow exponent = (do
      let base ← a.powerBase exponent
      powerBy DenseMatrix.mul (identity n) base exponent.natAbs) := by
  have hrows : a.rows = n := congrArg Prod.fst ha.dimension
  rw [DenseMatrix.pow, requireSquare_of_dimension ha.dimension, hrows]
  rfl

theorem HasEntries.pow_of_det_eq_zero (ha : a.HasEntries x) (hdet : x.det = 0)
    (hexponent : exponent < 0) : a.pow exponent = .error .singular := by
  obtain rfl : n = a.rows := (congrArg Prod.fst ha.dimension).symm
  obtain rfl := ha.entries
  rw [ha.pow_eq, powerBase, if_pos hexponent, inverse_of_det_eq_zero ha.isSquare hdet]
  rfl

/-- A natural power is the product of so many copies of the matrix. -/
theorem HasEntries.pow_natCast (ha : a.HasEntries x) (count : ℕ) :
    a.pow count = a.repeatedProduct count := by
  have hnonneg : ¬ (count : ℤ) < 0 := Int.not_lt.2 (Int.natCast_nonneg count)
  rw [ha.pow_eq, powerBase, if_neg hnonneg, ha.repeatedProduct_eq_powerBy]
  rfl

/-- A negative power is the product of so many copies of the inverse. -/
theorem HasEntries.pow_neg_natCast (ha : a.HasEntries x) (hb : b.HasEntries x⁻¹)
    (hinverse : a.inverse = .ok b) (count : ℕ) :
    a.pow (-count) = b.repeatedProduct count := by
  rw [ha.pow_eq, hb.repeatedProduct_eq_powerBy, powerBase, Int.natAbs_neg, Int.natAbs_natCast]
  by_cases hzero : count = 0
  · rw [hzero, if_neg (by simp), powerBy_zero]
    exact powerBy_zero _ _ _
  · rw [if_pos (by omega), hinverse]
    rfl

/-- A power has the entries of the power, where negative exponents need a nonzero determinant. -/
theorem HasEntries.exists_pow (ha : a.HasEntries x) (exponent : ℤ)
    (h : exponent < 0 → x.det ≠ 0) :
    ∃ power, a.pow exponent = .ok power ∧ power.HasEntries (x ^ exponent) := by
  by_cases hnegative : exponent < 0
  · obtain ⟨b, hinverse, hb⟩ := ha.exists_inverse (h hnegative)
    obtain ⟨count, rfl⟩ : ∃ count : ℕ, exponent = -count := ⟨exponent.natAbs, by omega⟩
    obtain ⟨power, hpower, hentries⟩ := hb.exists_repeatedProduct count
    refine ⟨power, (ha.pow_neg_natCast hb hinverse count).trans hpower, ?_⟩
    rwa [Matrix.zpow_neg_natCast, ← Matrix.inv_pow']
  · obtain ⟨count, rfl⟩ := Int.eq_ofNat_of_zero_le (Int.not_lt.1 hnegative)
    obtain ⟨power, hpower, hentries⟩ := ha.exists_repeatedProduct count
    exact ⟨power, (ha.pow_natCast count).trans hpower, by rwa [zpow_natCast]⟩

/-- Where the entries have a nonzero determinant, exponents add up in products. -/
theorem HasEntries.exists_pow_mul_pow (ha : a.HasEntries x) (hdet : x.det ≠ 0)
    (first second : ℤ) : ∃ p q product, a.pow first = .ok p ∧ a.pow second = .ok q ∧
      p.mul q = .ok product ∧ a.pow (first + second) = .ok product := by
  obtain ⟨p, hp, hpEntries⟩ := ha.exists_pow first fun _ => hdet
  obtain ⟨q, hq, hqEntries⟩ := ha.exists_pow second fun _ => hdet
  obtain ⟨r, hr, hrEntries⟩ := ha.exists_pow (first + second) fun _ => hdet
  obtain ⟨product, hproduct, hentries⟩ := hpEntries.exists_mul hqEntries
  rw [← Matrix.zpow_add (isUnit_iff_ne_zero.2 hdet)] at hentries
  exact ⟨p, q, product, hp, hq, hproduct, hentries.eq hrEntries ▸ hr⟩

/-- Where the entries have a nonzero determinant, opposite exponents give inverse powers. -/
theorem HasEntries.exists_pow_neg (ha : a.HasEntries x) (hdet : x.det ≠ 0) (exponent : ℤ) :
    ∃ p q, a.pow exponent = .ok p ∧ a.pow (-exponent) = .ok q ∧ p.inverse = .ok q := by
  have hunit : IsUnit x.det := isUnit_iff_ne_zero.2 hdet
  obtain ⟨p, hp, hpEntries⟩ := ha.exists_pow exponent fun _ => hdet
  obtain ⟨q, hq, hqEntries⟩ := ha.exists_pow (-exponent) fun _ => hdet
  obtain ⟨b, hinverse, hb⟩ := hpEntries.exists_inverse (hunit.det_zpow exponent).ne_zero
  rw [← Matrix.zpow_neg hunit] at hb
  exact ⟨p, q, hp, hq, hb.eq hqEntries ▸ hinverse⟩

/-- A power exists unless the matrix is not square, or the exponent is negative and the determinant
is zero; the failure says which. -/
theorem pow_cases (a : DenseMatrix ℚ) (exponent : ℤ) :
    (¬ a.isSquare ∧ a.pow exponent = .error (.notSquare a.rows a.columns)) ∨
      (exponent < 0 ∧ a.determinant = .ok 0 ∧ a.pow exponent = .error .singular) ∨
      (a.isSquare ∧ ¬ (exponent < 0 ∧ a.determinant = .ok 0) ∧
        ∃ power, a.pow exponent = .ok power) := by
  by_cases hsquare : a.isSquare
  · have ha := hasEntries_of_isSquare hsquare
    have hzero : a.determinant = .ok 0 ↔ a.det = 0 := by
      rw [determinant_eq_ok_iff, and_iff_right hsquare]
      exact eq_comm
    by_cases hsingular : exponent < 0 ∧ a.det = 0
    · exact Or.inr (Or.inl ⟨hsingular.1, hzero.2 hsingular.2,
        ha.pow_of_det_eq_zero hsingular.2 hsingular.1⟩)
    · obtain ⟨power, hpower, -⟩ :=
        ha.exists_pow exponent fun hnegative hdet => hsingular ⟨hnegative, hdet⟩
      rw [← hzero] at hsingular
      exact Or.inr (Or.inr ⟨hsquare, hsingular, power, hpower⟩)
  · exact Or.inl ⟨hsquare, pow_of_not_isSquare hsquare exponent⟩

/-- The powers of a rational matrix: when there is none, which products of copies they are, and
that the exponents of an invertible matrix count as in a cyclic group. -/
structure PowerLaws (a : DenseMatrix ℚ) : Prop where
  notSquare : ∀ exponent rows columns, a.pow exponent = .error (.notSquare rows columns) ↔
    ¬ a.isSquare ∧ a.dimension = (rows, columns)
  singular : ∀ exponent, a.pow exponent = .error .singular ↔
    exponent < 0 ∧ a.determinant = .ok 0
  natural : a.isSquare → ∀ count : ℕ, ∃ power, a.pow count = .ok power ∧
    a.repeatedProduct count = .ok power
  negative : a.IsInvertible → ∃ b, a.inverse = .ok b ∧
    ∀ count : ℕ, ∃ power, a.pow (-count) = .ok power ∧ b.repeatedProduct count = .ok power
  add : a.IsInvertible → ∀ first second, ∃ p q product, a.pow first = .ok p ∧
    a.pow second = .ok q ∧ p.mul q = .ok product ∧ a.pow (first + second) = .ok product
  neg : a.IsInvertible → ∀ exponent, ∃ p q, a.pow exponent = .ok p ∧
    a.pow (-exponent) = .ok q ∧ p.inverse = .ok q

/-- A rational matrix has no power if it is not square, and no negative power if its determinant is
zero. All other powers are the products of so many copies, of the matrix for natural exponents and
of its inverse for negative ones. Powers of an invertible matrix multiply by adding the exponents,
and opposite exponents give inverse matrices, for all integers as exponents. -/
theorem powerLaws (a : DenseMatrix ℚ) : PowerLaws a where
  notSquare exponent rows columns := by
    rcases pow_cases a exponent with ⟨hsquare, hpow⟩ | ⟨_, hdeterminant, hpow⟩ |
      ⟨hsquare, _, power, hpow⟩
    · simp [hpow, hsquare, dimension]
    · simp [hpow, (determinant_eq_ok_iff.1 hdeterminant).1]
    · simp [hpow, hsquare]
  singular exponent := by
    rcases pow_cases a exponent with ⟨hsquare, hpow⟩ | ⟨hnegative, hdeterminant, hpow⟩ |
      ⟨_, hnot, power, hpow⟩
    · simp [hpow, determinant_eq_ok_iff, hsquare]
    · exact iff_of_true hpow ⟨hnegative, hdeterminant⟩
    · exact iff_of_false (by simp [hpow]) hnot
  natural hsquare count := by
    have ha := hasEntries_of_isSquare hsquare
    obtain ⟨power, hpower, -⟩ := ha.exists_repeatedProduct count
    exact ⟨power, (ha.pow_natCast count).trans hpower, hpower⟩
  negative hinvertible := by
    obtain ⟨ha, hdet⟩ := hinvertible.hasEntries
    obtain ⟨b, hinverse, hb⟩ := ha.exists_inverse hdet
    refine ⟨b, hinverse, fun count => ?_⟩
    obtain ⟨power, hpower, -⟩ := hb.exists_repeatedProduct count
    exact ⟨power, (ha.pow_neg_natCast hb hinverse count).trans hpower, hpower⟩
  add hinvertible := hinvertible.hasEntries.1.exists_pow_mul_pow hinvertible.hasEntries.2
  neg hinvertible := hinvertible.hasEntries.1.exists_pow_neg hinvertible.hasEntries.2

end Powers

end ExactAlgebra.DenseMatrix
