import ExactAlgebra.DenseMatrix.Power
import ExactAlgebra.Proofs.DenseMatrix.Entries
import ExactAlgebra.Proofs.Results
import Mathlib.LinearAlgebra.Matrix.Adjugate
import Mathlib.Algebra.Field.Rat

/-!
Determinants, adjugates and inverses are those of linear algebra. The expansion along the first row
is the determinant of the entries, because deleting a row and a column skips the same indices on
both sides. The product of a square matrix and its adjugate, in either order, is the determinant on
the diagonal, and a rational matrix with a nonzero determinant has its inverse on both sides.
-/

namespace ExactAlgebra.DenseMatrix

variable {α : Type} [CommRing α] {m : DenseMatrix α} {n : ℕ}

/-- The sign is the same with indices from zero. -/
theorem signed_succ_succ (i j : ℕ) (value : α) :
    signed (i + 1) (j + 1) value = (-1) ^ (i + j) * value := by
  unfold signed
  by_cases heven : (i + j) % 2 = 0
  · rw [if_pos (by omega), (Nat.even_iff.2 heven).neg_one_pow, one_mul]
  · have hodd : Odd (i + j) := Nat.odd_iff.2 (by omega)
    rw [if_neg (by omega), hodd.neg_one_pow, zero_sub, neg_one_mul]

/-- Deleting a row and a column skips their indices. -/
theorem entries_delete (hdimension : m.dimension = (n + 1, n + 1)) (i j : Fin (n + 1)) :
    (m.delete (i + 1) (j + 1)).entries n n =
      (m.entries (n + 1) (n + 1)).submatrix i.succAbove j.succAbove := by
  obtain ⟨hrows, hcolumns⟩ := Prod.mk.inj hdimension
  have hskip : ∀ (i : Fin (n + 1)) (k : Fin n),
      (if (i : ℕ) + 1 ≤ k + 1 then (k : ℕ) + 1 + 1 else k + 1) = i.succAbove k + 1 := by
    intro i k
    by_cases hlt : (k : ℕ) < i
    · rw [if_neg (by omega), Fin.succAbove_of_castSucc_lt _ _ hlt, Fin.val_castSucc]
    · rw [if_pos (by omega), Fin.succAbove_of_le_castSucc _ _ (Nat.le_of_not_lt hlt), Fin.val_succ]
  unfold delete
  rw [hrows, hcolumns, Nat.add_sub_cancel, entries_ofFn]
  ext k l
  simp only [Matrix.of_apply, Matrix.submatrix_apply, entries_apply, hskip]

theorem dimension_delete (hdimension : m.dimension = (n + 1, n + 1)) (row column : ℕ) :
    (m.delete row column).dimension = (n, n) := by
  obtain ⟨hrows, hcolumns⟩ := Prod.mk.inj hdimension
  change (m.rows - 1, m.columns - 1) = (n, n)
  rw [hrows, hcolumns, Nat.add_sub_cancel]

/-- Expanding along first rows computes the determinant. -/
theorem determinantOfSize_eq_det (hdimension : m.dimension = (n, n)) :
    determinantOfSize n m = (m.entries n n).det := by
  -- Size one is not expanded, so the induction begins with two sizes.
  induction n using Nat.twoStepInduction generalizing m with
  | zero => rw [determinantOfSize, Matrix.det_isEmpty]
  | one => rw [determinantOfSize, Matrix.det_fin_one, entries_apply]; rfl
  | more n _ ih =>
      rw [determinantOfSize, foldl_indices fun column => m.entry 1 column * _,
        Matrix.det_succ_row_zero]
      refine Finset.sum_congr rfl fun j _ => ?_
      have hminor := ih (dimension_delete hdimension 1 (j + 1))
      have hentries := entries_delete hdimension 0 j
      rw [Fin.val_zero, Nat.zero_add, Fin.succAbove_zero] at hentries
      rw [hminor, hentries, signed_succ_succ 0 j, Nat.zero_add, entries_apply]
      exact mul_left_comm _ _ _ |>.trans (mul_assoc _ _ _).symm

/-- Cofactors are signed determinants of submatrices. -/
theorem cofactor_eq (hdimension : m.dimension = (n + 1, n + 1)) (i j : Fin (n + 1)) :
    m.cofactor (i + 1) (j + 1) = (-1) ^ (i + j : ℕ) *
      ((m.entries (n + 1) (n + 1)).submatrix i.succAbove j.succAbove).det := by
  obtain ⟨hrows, -⟩ := Prod.mk.inj hdimension
  rw [cofactor, signed_succ_succ, hrows, Nat.add_sub_cancel,
    determinantOfSize_eq_det (dimension_delete hdimension _ _), entries_delete hdimension]

omit [CommRing α] in
theorem requireSquare_of_dimension (hdimension : m.dimension = (n, n)) :
    m.requireSquare = .ok () := by
  obtain ⟨hrows, hcolumns⟩ := Prod.mk.inj hdimension
  exact if_pos (beq_iff_eq.2 (hrows.trans hcolumns.symm))

theorem determinant_eq (hdimension : m.dimension = (n, n)) :
    m.determinant = .ok (m.entries n n).det := by
  have hrows : m.rows = n := congrArg Prod.fst hdimension
  rw [determinant, requireSquare_of_dimension hdimension, hrows,
    determinantOfSize_eq_det hdimension]
  rfl

/-- Cofactors are signed determinants of minors. -/
theorem exists_minor? (hdimension : m.dimension = (n + 1, n + 1)) (i j : Fin (n + 1)) :
    ∃ minor value, m.minor? (i + 1) (j + 1) = some minor ∧ minor.determinant = .ok value ∧
      m.cofactor (i + 1) (j + 1) = signed (i + 1) (j + 1) value := by
  obtain ⟨hrows, hcolumns⟩ := Prod.mk.inj hdimension
  have hdelete := dimension_delete hdimension (i + 1) (j + 1)
  refine ⟨_, _, if_pos ?_, determinant_eq hdelete, ?_⟩
  · omega
  · rw [cofactor, hrows, Nat.add_sub_cancel, determinantOfSize_eq_det hdelete]

theorem determinant_of_not_isSquare (hsquare : ¬ m.isSquare) :
    m.determinant = .error (.notSquare m.rows m.columns) := by
  have hrequire : m.requireSquare = .error (.notSquare m.rows m.columns) := if_neg hsquare
  rw [determinant, hrequire]
  rfl

theorem entries_identity (n : ℕ) :
    (identity n : DenseMatrix α).entries n n = (1 : Matrix (Fin n) (Fin n) α) := by
  rw [identity, entries_ofFn]
  ext i j
  simp [Matrix.one_apply, Fin.ext_iff]

/-- Every square matrix has an adjugate, with the entries of the adjugate of its entries. -/
theorem exists_adjugate (hdimension : m.dimension = (n, n)) :
    ∃ b, m.adjugate = .ok b ∧ b.dimension = (n, n) ∧
      b.entries n n = (m.entries n n).adjugate := by
  obtain ⟨hrows, hcolumns⟩ := Prod.mk.inj hdimension
  rw [adjugate, requireSquare_of_dimension hdimension]
  by_cases hone : m.rows = 1
  · obtain rfl : n = 1 := hrows.symm.trans hone
    refine ⟨identity 1, if_pos hone, rfl, ?_⟩
    rw [Matrix.adjugate_fin_one, entries_identity]
  · refine ⟨ofFn n n fun row column => m.cofactor column row, (if_neg hone).trans ?_, rfl, ?_⟩
    · rw [hrows, hcolumns]
      rfl
    · rw [entries_ofFn]
      ext i j
      rcases n with _ | n
      · exact i.elim0
      · rw [Matrix.adjugate_fin_succ_eq_det_submatrix]
        exact cofactor_eq hdimension j i

/-- Entries that multiply to a multiple of the identity are those of matrices that do. -/
theorem mul_eq_scale {a b : DenseMatrix α} (ha : a.dimension = (n, n)) (hb : b.dimension = (n, n))
    {value : α} (h : a.entries n n * b.entries n n = value • (1 : Matrix (Fin n) (Fin n) α)) :
    a.mul b = .ok ((identity n).scale value) := by
  rw [scale, identity, map_ofFn]
  refine mul_eq_ok ha hb (h.trans ?_)
  ext i j
  simp [Matrix.one_apply, Fin.ext_iff]

@[simp] theorem scale_one (m : DenseMatrix α) : m.scale 1 = m := by
  simp [scale, map, Grid.map]

/-- The determinant of the entries of a square matrix. -/
def det (m : DenseMatrix α) : α := (m.entries m.rows m.rows).det

omit [CommRing α] in
theorem dimension_of_isSquare (hsquare : m.isSquare) : m.dimension = (m.rows, m.rows) :=
  Prod.ext rfl (beq_iff_eq.1 hsquare).symm

/-- The adjugate times the matrix, on either side, is the determinant on the diagonal. -/
theorem exists_adjugate_mul (hsquare : m.isSquare) :
    ∃ b, m.adjugate = .ok b ∧ m.mul b = .ok ((identity m.rows).scale m.det) ∧
      b.mul m = .ok ((identity m.rows).scale m.det) := by
  have hdimension := dimension_of_isSquare hsquare
  obtain ⟨b, hadjugate, hb, hentries⟩ := exists_adjugate hdimension
  refine ⟨b, hadjugate, mul_eq_scale hdimension hb ?_, mul_eq_scale hb hdimension ?_⟩
  · rw [hentries, Matrix.mul_adjugate, det]
  · rw [hentries, Matrix.adjugate_mul, det]

/-- A multiple of the adjugate inverts the matrix when the factor inverts the determinant. -/
theorem mul_of_entries_eq_smul {b : DenseMatrix α} {factor : α} (hsquare : m.isSquare)
    (hb : b.dimension = (m.rows, m.rows)) (hfactor : factor * m.det = 1)
    (hentries : b.entries m.rows m.rows = factor • (m.entries m.rows m.rows).adjugate) :
    m.mul b = .ok (identity m.rows) ∧ b.mul m = .ok (identity m.rows) := by
  have hdimension := dimension_of_isSquare hsquare
  have hright : m.entries m.rows m.rows * b.entries m.rows m.rows = (1 : α) • 1 := by
    rw [hentries, Matrix.mul_smul, Matrix.mul_adjugate, smul_smul, ← det, hfactor]
  have hleft : b.entries m.rows m.rows * m.entries m.rows m.rows = (1 : α) • 1 := by
    rw [hentries, Matrix.smul_mul, Matrix.adjugate_mul, smul_smul, ← det, hfactor]
  constructor
  · rw [mul_eq_scale hdimension hb hright, scale_one]
  · rw [mul_eq_scale hb hdimension hleft, scale_one]

section Inverse

section Entries

variable [MatrixEntry α] [DecidableEq α]

theorem inverse_of_not_isSquare (hsquare : ¬ m.isSquare) :
    m.inverse = .error (.notSquare m.rows m.columns) := by
  rw [inverse, determinant_of_not_isSquare hsquare]
  rfl

theorem inverse_of_det_eq_zero (hsquare : m.isSquare) (hdet : m.det = 0) :
    m.inverse = .error .singular := by
  rw [inverse, determinant_eq (dimension_of_isSquare hsquare)]
  exact if_pos hdet

/-- A square matrix with a nonzero determinant has the quotients of its adjugate as its inverse. -/
theorem exists_quotients (hsquare : m.isSquare) (hdet : m.det ≠ 0) :
    ∃ b, m.adjugate = .ok b ∧ b.dimension = (m.rows, m.rows) ∧
      b.entries m.rows m.rows = (m.entries m.rows m.rows).adjugate ∧
      m.inverse = .ok (b.map fun value => MatrixEntry.quotient value m.det) := by
  have hdimension := dimension_of_isSquare hsquare
  obtain ⟨b, hadjugate, hb, hentries⟩ := exists_adjugate hdimension
  refine ⟨b, hadjugate, hb, hentries, ?_⟩
  rw [inverse, determinant_eq hdimension, hadjugate]
  exact if_neg hdet

end Entries

variable {a : DenseMatrix ℚ}

/-- Dividing the adjugate by a nonzero determinant inverts the entries. -/
theorem exists_inverse (hsquare : a.isSquare) (hdet : a.det ≠ 0) :
    ∃ b, a.inverse = .ok b ∧ b.dimension = (a.rows, a.rows) ∧
      b.entries a.rows a.rows = a.det⁻¹ • (a.entries a.rows a.rows).adjugate := by
  obtain ⟨b, -, hb, hentries, hinverse⟩ := exists_quotients hsquare hdet
  refine ⟨b.map fun value => value / a.det, hinverse, hb, ?_⟩
  rw [entries_map (zero_div a.det), hentries]
  ext i j
  exact div_eq_inv_mul _ _

theorem exists_inverse_mul (hsquare : a.isSquare) (hdet : a.det ≠ 0) :
    ∃ b, a.inverse = .ok b ∧ a.mul b = .ok (identity a.rows) ∧
      b.mul a = .ok (identity a.rows) := by
  obtain ⟨b, hinverse, hb, hentries⟩ := exists_inverse hsquare hdet
  exact ⟨b, hinverse, mul_of_entries_eq_smul hsquare hb (inv_mul_cancel₀ hdet) hentries⟩

/-- A matrix is inverted unless it is not square or has determinant zero, and the failure says
which. -/
theorem inverse_cases (a : DenseMatrix ℚ) :
    (¬ a.isSquare ∧ a.inverse = .error (.notSquare a.rows a.columns)) ∨
      (a.isSquare ∧ a.det = 0 ∧ a.inverse = .error .singular) ∨
      (a.isSquare ∧ a.det ≠ 0 ∧ ∃ b, a.inverse = .ok b) := by
  by_cases hsquare : a.isSquare
  · by_cases hdet : a.det = 0
    · exact Or.inr (Or.inl ⟨hsquare, hdet, inverse_of_det_eq_zero hsquare hdet⟩)
    · obtain ⟨b, hinverse, -⟩ := exists_inverse hsquare hdet
      exact Or.inr (Or.inr ⟨hsquare, hdet, b, hinverse⟩)
  · exact Or.inl ⟨hsquare, inverse_of_not_isSquare hsquare⟩

end Inverse

/-- Square matrices of rationals and of integers, of any size, have a determinant and an adjugate,
and multiply with the adjugate in either order to the determinant on the diagonal. A rational matrix
has an inverse, on both sides, unless it is not square or its determinant is zero, and these are
told apart. -/
theorem mul_adjugate_and_inverse :
    (∀ a : DenseMatrix ℚ, a.isSquare → a.determinant = .ok a.det ∧
      ∃ b, a.adjugate = .ok b ∧ a.mul b = .ok ((identity a.rows).scale a.det) ∧
        b.mul a = .ok ((identity a.rows).scale a.det)) ∧
    (∀ a : DenseMatrix ℤ, a.isSquare → a.determinant = .ok a.det ∧
      ∃ b, a.adjugate = .ok b ∧ a.mul b = .ok ((identity a.rows).scale a.det) ∧
        b.mul a = .ok ((identity a.rows).scale a.det)) ∧
    ∀ a : DenseMatrix ℚ,
      (∀ rows columns, a.inverse = .error (.notSquare rows columns) ↔
        ¬ a.isSquare ∧ a.dimension = (rows, columns)) ∧
      (a.inverse = .error .singular ↔ a.isSquare ∧ a.det = 0) ∧
      (a.isSquare → a.det ≠ 0 →
        ∃ b, a.inverse = .ok b ∧ a.mul b = .ok (identity a.rows) ∧
          b.mul a = .ok (identity a.rows)) := by
  refine ⟨fun a ha => ⟨determinant_eq (dimension_of_isSquare ha), exists_adjugate_mul ha⟩,
    fun a ha => ⟨determinant_eq (dimension_of_isSquare ha), exists_adjugate_mul ha⟩,
    fun a => ⟨fun rows columns => ?_, ?_, exists_inverse_mul⟩⟩
  · rcases inverse_cases a with ⟨hsquare, hinverse⟩ | ⟨hsquare, _, hinverse⟩ |
      ⟨hsquare, _, b, hinverse⟩ <;> simp [hinverse, hsquare, dimension]
  · rcases inverse_cases a with ⟨hsquare, hinverse⟩ | ⟨hsquare, hdet, hinverse⟩ |
      ⟨hsquare, hdet, b, hinverse⟩ <;> simp [*]

def oneToFour : DenseMatrix ℚ := ofFn 2 2 fun row column => 2 * row + column - 2

theorem mul_adjugate_and_inverse_oneToFour :
    oneToFour.isSquare ∧ oneToFour.det ≠ 0 ∧
      (∃ b, oneToFour.adjugate = .ok b ∧
        oneToFour.mul b = .ok ((identity 2).scale oneToFour.det) ∧
        b.mul oneToFour = .ok ((identity 2).scale oneToFour.det)) ∧
      ∃ b, oneToFour.inverse = .ok b ∧ oneToFour.mul b = .ok (identity 2) ∧
        b.mul oneToFour = .ok (identity 2) := by
  have hsquare : oneToFour.isSquare := rfl
  obtain ⟨hdeterminant, hadjugate⟩ := mul_adjugate_and_inverse.1 oneToFour hsquare
  have hdet : oneToFour.det ≠ 0 := by
    intro hzero
    rw [hzero] at hdeterminant
    exact absurd hdeterminant (by decide +kernel)
  have hinverse := (mul_adjugate_and_inverse.2.2 oneToFour).2.2 hsquare hdet
  exact ⟨hsquare, hdet, hadjugate, hinverse⟩

end ExactAlgebra.DenseMatrix
