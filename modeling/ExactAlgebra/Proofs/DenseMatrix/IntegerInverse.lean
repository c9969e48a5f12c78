import ExactAlgebra.Proofs.DenseMatrix.Determinant
import Mathlib.LinearAlgebra.Matrix.NonsingularInverse

/-!
Inverses of integer matrices. Division toward zero is exact when the determinant is one or minus
one, and the quotients then invert the matrix on both sides. For any other determinant the quotients
are no inverse, however they were rounded: the determinants of a matrix and its inverse multiply to
one.
-/

namespace ExactAlgebra.DenseMatrix

variable {a b : DenseMatrix ℤ}

/-- Quotients by one and minus one are exact. -/
theorem tdiv_eq_mul_of_unit {d : ℤ} (hd : d = 1 ∨ d = -1) (value : ℤ) :
    value.tdiv d = d * value := by
  rcases hd with rfl | rfl
  · rw [Int.tdiv_one, one_mul]
  · rw [Int.tdiv_neg, Int.tdiv_one, neg_one_mul]

/-- A matrix with an inverse has a determinant that divides one. -/
theorem det_unit_of_mul_eq_identity (hsquare : a.isSquare) (hb : b.dimension = (a.rows, a.rows))
    (hmul : a.mul b = .ok (identity a.rows)) : a.det = 1 ∨ a.det = -1 := by
  obtain ⟨product, hproduct, -, hentries⟩ := exists_mul (dimension_of_isSquare hsquare) hb
  obtain rfl : product = identity a.rows := Except.ok.inj (hproduct.symm.trans hmul)
  rw [entries_identity] at hentries
  have hunit : IsUnit (a.entries a.rows a.rows).det :=
    Matrix.isUnit_det_of_right_inverse hentries.symm
  exact Int.isUnit_iff.1 hunit

/-- Dividing the adjugate by one or minus one inverts the matrix on both sides. -/
theorem mul_quotients_of_unit (hsquare : a.isSquare) (hdet : a.det = 1 ∨ a.det = -1)
    (hb : b.dimension = (a.rows, a.rows))
    (hentries : b.entries a.rows a.rows = (a.entries a.rows a.rows).adjugate) :
    a.mul (b.map fun value => value.tdiv a.det) = .ok (identity a.rows) ∧
      (b.map fun value => value.tdiv a.det).mul a = .ok (identity a.rows) := by
  have hdimension : (b.map fun value => value.tdiv a.det).dimension = (a.rows, a.rows) := hb
  have hsquared : a.det * a.det = 1 := by
    rcases hdet with hdet | hdet <;> rw [hdet] <;> rfl
  refine mul_of_entries_eq_smul hsquare hdimension hsquared ?_
  rw [entries_map (Int.zero_tdiv a.det), hentries]
  ext i j
  exact tdiv_eq_mul_of_unit hdet _

/-- A square matrix of integers is refused as singular if its determinant is zero, and otherwise the
adjugate divided by the determinant toward zero is returned. This is an inverse, and then on both
sides, exactly if the determinant is one or minus one. -/
theorem integerInverse_isExact_iff (a : DenseMatrix ℤ) (hsquare : a.isSquare) :
    ∃ d, a.determinant = .ok d ∧
      (a.inverse = .error .singular ↔ d = 0) ∧
      (d ≠ 0 → ∃ adjugate b, a.adjugate = .ok adjugate ∧
        b = adjugate.map (fun value => value.tdiv d) ∧ a.inverse = .ok b ∧
        (a.mul b = .ok (identity a.rows) ↔ d = 1 ∨ d = -1) ∧
        (d = 1 ∨ d = -1 → b.mul a = .ok (identity a.rows))) := by
  refine ⟨a.det, determinant_eq_ok_iff.2 ⟨hsquare, rfl⟩, ?_⟩
  by_cases hdet : a.det = 0
  · exact ⟨iff_of_true (inverse_of_det_eq_zero hsquare hdet) hdet, fun hne => absurd hdet hne⟩
  · obtain ⟨adjugate, hadjugate, hdimension, hentries, hinverse⟩ := exists_quotients hsquare hdet
    have hnotSingular : a.inverse ≠ .error .singular := by
      rw [hinverse]
      exact fun h => by cases h
    refine ⟨iff_of_false hnotSingular hdet, fun _ => ?_⟩
    refine ⟨adjugate, _, hadjugate, rfl, hinverse, ⟨?_, ?_⟩, ?_⟩
    · exact det_unit_of_mul_eq_identity hsquare hdimension
    · exact fun hunit => (mul_quotients_of_unit hsquare hunit hdimension hentries).1
    · exact fun hunit => (mul_quotients_of_unit hsquare hunit hdimension hentries).2

/-- Ones, but for a zero in the last place. The determinant is minus one. -/
def fibonacci : DenseMatrix ℤ := ofFn 2 2 fun row column => if row + column = 4 then 0 else 1

theorem integerInverse_isExact_iff_fibonacci :
    fibonacci.isSquare ∧ fibonacci.determinant = .ok (-1) ∧
      ∃ b, fibonacci.inverse = .ok b ∧ fibonacci.mul b = .ok (identity 2) ∧
        b.mul fibonacci = .ok (identity 2) := by
  have hsquare : fibonacci.isSquare := rfl
  have hdeterminant : fibonacci.determinant = .ok (-1) := by decide +kernel
  obtain ⟨d, hd, -, hquotients⟩ := integerInverse_isExact_iff fibonacci hsquare
  obtain rfl : d = -1 := Except.ok.inj (hd.symm.trans hdeterminant)
  obtain ⟨_, b, -, -, hinverse, hmul, hmul'⟩ := hquotients (by decide)
  exact ⟨hsquare, hdeterminant, b, hinverse, hmul.2 (Or.inr rfl), hmul' (Or.inr rfl)⟩

end ExactAlgebra.DenseMatrix
