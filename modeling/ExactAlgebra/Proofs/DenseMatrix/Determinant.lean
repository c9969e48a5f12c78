import ExactAlgebra.Proofs.DenseMatrix.Adjugate

/-!
Laws of the determinant. The value of the expansion along first rows is the sum over all
permutations, so determinants multiply, are the same with rows and columns exchanged, and change
their sign with the exchange of two rows.
-/

namespace ExactAlgebra.DenseMatrix

variable {α : Type}

/-- The sum over all permutations of the products of the entries that they select, with signs. -/
def leibnizSum [CommRing α] (m : DenseMatrix α) : α :=
  ∑ σ : Equiv.Perm (Fin m.rows),
    ((Equiv.Perm.sign σ : ℤ) : α) * ∏ j : Fin m.rows, m.entry (σ j + 1) (j + 1)

/-- The matrix with two of its rows exchanged. -/
def exchangeRows [Zero α] (m : DenseMatrix α) (first second : ℕ) : DenseMatrix α :=
  ofFn m.rows m.columns fun row column => m.entry (Equiv.swap first second row) column

/-- What a determinant is, and what it does with products and exchanges. -/
structure DeterminantLaws [CommRing α] (a : DenseMatrix α) : Prop where
  leibniz : a.isSquare → a.determinant = .ok a.leibnizSum
  notSquare : ∀ cause, a.determinant = .error cause ↔
    ¬ a.isSquare ∧ cause = .notSquare a.rows a.columns
  mul : ∀ b x y, b.dimension = a.dimension → a.determinant = .ok x → b.determinant = .ok y →
    ∃ product, a.mul b = .ok product ∧ product.determinant = .ok (x * y)
  transpose : ∀ x, a.determinant = .ok x → a.transpose.determinant = .ok x
  exchange : ∀ first second x, 1 ≤ first ∧ first ≤ a.rows → 1 ≤ second ∧ second ≤ a.rows →
    first ≠ second → a.determinant = .ok x →
      (a.exchangeRows first second).determinant = .ok (-x)

section Entries

variable [Zero α] {m : DenseMatrix α} {rows columns : ℕ}

theorem entries_transpose (hdimension : m.dimension = (rows, columns)) :
    m.transpose.entries columns rows = (m.entries rows columns).transpose := by
  obtain ⟨rfl, rfl⟩ := Prod.mk.inj hdimension
  rw [transpose, entries_ofFn]
  rfl

/-- Exchanging rows exchanges their indices. -/
theorem entries_exchangeRows (hdimension : m.dimension = (rows, columns)) (i k : Fin rows) :
    (m.exchangeRows (i + 1) (k + 1)).entries rows columns =
      (m.entries rows columns).submatrix (Equiv.swap i k) id := by
  obtain ⟨rfl, rfl⟩ := Prod.mk.inj hdimension
  have hsucc : Function.Injective fun row : Fin m.rows => (row : ℕ) + 1 :=
    (add_left_injective 1).comp Fin.val_injective
  rw [exchangeRows, entries_ofFn]
  ext row column
  exact congrArg (m.entry · (column + 1)) (hsucc.swap_apply i k row)

end Entries

variable [CommRing α] {a b : DenseMatrix α} {x y : α}

/-- Only square matrices have determinants, and these are determinants of their entries. -/
theorem determinant_eq_ok_iff : a.determinant = .ok x ↔ a.isSquare ∧ x = a.det := by
  by_cases hsquare : a.isSquare
  · rw [determinant_eq (dimension_of_isSquare hsquare), ← det]
    simp [hsquare, eq_comm]
  · simp [determinant_of_not_isSquare hsquare, hsquare]

theorem determinant_eq_error_iff (cause : Error) :
    a.determinant = .error cause ↔ ¬ a.isSquare ∧ cause = .notSquare a.rows a.columns := by
  by_cases hsquare : a.isSquare
  · simp [determinant_eq (dimension_of_isSquare hsquare), hsquare]
  · simp [determinant_of_not_isSquare hsquare, hsquare, eq_comm]

theorem det_eq_leibnizSum (a : DenseMatrix α) : a.det = a.leibnizSum :=
  Matrix.det_apply' _

/-- Determinants multiply. -/
theorem exists_mul_determinant (hb : b.dimension = a.dimension) (hx : a.determinant = .ok x)
    (hy : b.determinant = .ok y) :
    ∃ product, a.mul b = .ok product ∧ product.determinant = .ok (x * y) := by
  obtain ⟨hsquare, rfl⟩ := determinant_eq_ok_iff.1 hx
  have ha := dimension_of_isSquare hsquare
  obtain ⟨product, hmul, hdimension, hentries⟩ := exists_mul ha (hb.trans ha)
  refine ⟨product, hmul, ?_⟩
  have hdet : y = (b.entries a.rows a.rows).det :=
    Except.ok.inj (hy.symm.trans (determinant_eq (hb.trans ha)))
  rw [determinant_eq hdimension, hentries, Matrix.det_mul, hdet, det]

theorem determinant_transpose (hx : a.determinant = .ok x) :
    a.transpose.determinant = .ok x := by
  obtain ⟨hsquare, rfl⟩ := determinant_eq_ok_iff.1 hx
  have hdimension := dimension_of_isSquare hsquare
  have htranspose : a.transpose.dimension = (a.rows, a.rows) := congrArg Prod.swap hdimension
  rw [determinant_eq htranspose, entries_transpose hdimension, Matrix.det_transpose, det]

/-- Exchanging two rows changes the sign. -/
theorem determinant_exchangeRows {first second : ℕ} (hfirst : 1 ≤ first ∧ first ≤ a.rows)
    (hsecond : 1 ≤ second ∧ second ≤ a.rows) (hne : first ≠ second)
    (hx : a.determinant = .ok x) : (a.exchangeRows first second).determinant = .ok (-x) := by
  obtain ⟨hsquare, rfl⟩ := determinant_eq_ok_iff.1 hx
  have hdimension := dimension_of_isSquare hsquare
  obtain ⟨i, rfl⟩ : ∃ i : Fin a.rows, first = i + 1 := ⟨⟨first - 1, by omega⟩, by simp; omega⟩
  obtain ⟨k, rfl⟩ : ∃ k : Fin a.rows, second = k + 1 := ⟨⟨second - 1, by omega⟩, by simp; omega⟩
  have hindices : i ≠ k := fun hik => hne (by rw [hik])
  have hexchange : (a.exchangeRows (i + 1) (k + 1)).dimension = (a.rows, a.rows) := hdimension
  rw [determinant_eq hexchange, entries_exchangeRows hdimension, Matrix.det_permute,
    Equiv.Perm.sign_swap hindices, det]
  simp

theorem determinantLaws (a : DenseMatrix α) : DeterminantLaws a where
  leibniz hsquare := determinant_eq_ok_iff.2 ⟨hsquare, (det_eq_leibnizSum a).symm⟩
  notSquare := determinant_eq_error_iff
  mul _ _ _ := exists_mul_determinant
  transpose _ := determinant_transpose
  exchange _ _ _ := determinant_exchangeRows

/-- Every square matrix of rationals or of integers, of any size, has the sum over all permutations
as its determinant, and every other matrix is refused as not square. Determinants multiply, are kept
by transposition, and change their sign with the exchange of two rows. -/
theorem determinantLaws_rational_and_integer :
    (∀ a : DenseMatrix ℚ, DeterminantLaws a) ∧ ∀ a : DenseMatrix ℤ, DeterminantLaws a :=
  ⟨determinantLaws, determinantLaws⟩

end ExactAlgebra.DenseMatrix
