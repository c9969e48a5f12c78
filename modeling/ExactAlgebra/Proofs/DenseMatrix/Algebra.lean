import ExactAlgebra.Proofs.DenseMatrix.Determinant

/-!
The algebra of dense matrices of all shapes, with rows or columns missing as well. A dense matrix is
nothing but its dimension and its entries, and sums, products, multiples and transposes are those of
the entries. The laws of matrices therefore hold for the results themselves, whenever the dimensions
fit, and dimensions that do not fit are the only failure.
-/

namespace ExactAlgebra.DenseMatrix

variable {α : Type}

/-- What sums, products and multiples of matrices are, and the laws they obey. -/
structure MatrixLaws [CommRing α] (a b c : DenseMatrix α) : Prop where
  mul_error : ∀ cause, a.mul b = .error cause ↔
    a.columns ≠ b.rows ∧ cause = .dimensionMismatch a.dimension b.dimension
  mul_entry : a.columns = b.rows → ∃ product, a.mul b = .ok product ∧
    product.dimension = (a.rows, b.columns) ∧
    ∀ row column, 1 ≤ row ∧ row ≤ a.rows → 1 ≤ column ∧ column ≤ b.columns →
      product.get? row column =
        some (∑ k : Fin a.columns, a.entry row (k + 1) * b.entry (k + 1) column)
  stored : storable a.rows b.columns ∨ a.columns ≠ b.rows → a.storedMul b = a.mul b
  add_error : ∀ cause, a.add b = .error cause ↔
    a.dimension ≠ b.dimension ∧ cause = .dimensionMismatch a.dimension b.dimension
  add_entry : a.dimension = b.dimension → ∃ sum, a.add b = .ok sum ∧
    sum.dimension = a.dimension ∧
    ∀ row column, 1 ≤ row ∧ row ≤ a.rows → 1 ≤ column ∧ column ≤ a.columns →
      sum.get? row column = some (a.entry row column + b.entry row column)
  scale_entry : ∀ factor, (a.scale factor).dimension = a.dimension ∧
    ∀ row column, 1 ≤ row ∧ row ≤ a.rows → 1 ≤ column ∧ column ≤ a.columns →
      (a.scale factor).get? row column = some (a.entry row column * factor)
  mul_assoc : a.columns = b.rows → b.columns = c.rows → ∃ ab bc abc,
    a.mul b = .ok ab ∧ b.mul c = .ok bc ∧ ab.mul c = .ok abc ∧ a.mul bc = .ok abc
  mul_add : a.columns = b.rows → b.dimension = c.dimension → ∃ sum ab ac result,
    b.add c = .ok sum ∧ a.mul b = .ok ab ∧ a.mul c = .ok ac ∧
      a.mul sum = .ok result ∧ ab.add ac = .ok result
  add_mul : a.dimension = b.dimension → a.columns = c.rows → ∃ sum ac bc result,
    a.add b = .ok sum ∧ a.mul c = .ok ac ∧ b.mul c = .ok bc ∧
      sum.mul c = .ok result ∧ ac.add bc = .ok result
  mul_identity : a.mul (identity a.columns) = .ok a
  identity_mul : (identity a.rows).mul a = .ok a
  stored_identity : ∀ size,
    identity? size = some (identity size : DenseMatrix α) ↔ storable size size
  scale : ∀ factor, a.columns = b.rows → ∃ product, a.mul b = .ok product ∧
    (a.scale factor).mul b = .ok (product.scale factor) ∧
      a.mul (b.scale factor) = .ok (product.scale factor)
  transpose : a.columns = b.rows → ∃ product, a.mul b = .ok product ∧
    b.transpose.mul a.transpose = .ok product.transpose

section Entries

variable [Zero α] {rows columns : ℕ} {a : DenseMatrix α}

/-- The dense matrix with the given entries. -/
def ofMatrix (x : Matrix (Fin rows) (Fin columns) α) : DenseMatrix α :=
  ofFn rows columns fun row column =>
    if h : row - 1 < rows ∧ column - 1 < columns then x ⟨row - 1, h.1⟩ ⟨column - 1, h.2⟩ else 0

theorem dimension_ofMatrix (x : Matrix (Fin rows) (Fin columns) α) :
    (ofMatrix x).dimension = (rows, columns) := rfl

@[simp] theorem entries_ofMatrix (x : Matrix (Fin rows) (Fin columns) α) :
    (ofMatrix x).entries rows columns = x := by
  rw [ofMatrix, entries_ofFn]
  ext i j
  simp

theorem eq_ofMatrix (h : a.dimension = (rows, columns)) :
    a = ofMatrix (a.entries rows columns) :=
  eq_of_entries_eq h rfl (entries_ofMatrix _).symm

theorem exists_eq_ofMatrix (h : a.dimension = (rows, columns)) :
    ∃ x : Matrix (Fin rows) (Fin columns) α, a = ofMatrix x :=
  ⟨_, eq_ofMatrix h⟩

theorem transpose_ofMatrix (x : Matrix (Fin rows) (Fin columns) α) :
    (ofMatrix x).transpose = ofMatrix x.transpose := by
  have hentries := entries_transpose (dimension_ofMatrix x)
  rw [entries_ofMatrix] at hentries
  rw [← hentries]
  exact eq_ofMatrix rfl

end Entries

variable [CommRing α] {a b c : DenseMatrix α} {rows inner columns : ℕ}

/-- Matrices of the same dimension have a sum, with the sums of their entries. -/
theorem exists_add (ha : a.dimension = (rows, columns)) (hb : b.dimension = (rows, columns)) :
    ∃ sum, a.add b = .ok sum ∧ sum.dimension = (rows, columns) ∧
      sum.entries rows columns = a.entries rows columns + b.entries rows columns := by
  obtain ⟨rfl, rfl⟩ := Prod.mk.inj ha
  refine ⟨_, if_neg (not_not.2 hb.symm), rfl, ?_⟩
  rw [entries_ofFn]
  rfl

theorem mul_ofMatrix (x : Matrix (Fin rows) (Fin inner) α)
    (y : Matrix (Fin inner) (Fin columns) α) :
    (ofMatrix x).mul (ofMatrix y) = .ok (ofMatrix (x * y)) := by
  obtain ⟨product, hmul, hdimension, hentries⟩ :=
    exists_mul (dimension_ofMatrix x) (dimension_ofMatrix y)
  rw [entries_ofMatrix, entries_ofMatrix] at hentries
  rw [hmul, eq_ofMatrix hdimension, hentries]

theorem add_ofMatrix (x y : Matrix (Fin rows) (Fin columns) α) :
    (ofMatrix x).add (ofMatrix y) = .ok (ofMatrix (x + y)) := by
  obtain ⟨sum, hadd, hdimension, hentries⟩ :=
    exists_add (dimension_ofMatrix x) (dimension_ofMatrix y)
  rw [entries_ofMatrix, entries_ofMatrix] at hentries
  rw [hadd, eq_ofMatrix hdimension, hentries]

theorem scale_ofMatrix (x : Matrix (Fin rows) (Fin columns) α) (factor : α) :
    (ofMatrix x).scale factor = ofMatrix (factor • x) := by
  have hdimension : ((ofMatrix x).scale factor).dimension = (rows, columns) := rfl
  have hentries : ((ofMatrix x).scale factor).entries rows columns = factor • x := by
    rw [scale, entries_map (zero_mul factor), entries_ofMatrix]
    ext i j
    exact mul_comm _ _
  rw [eq_ofMatrix hdimension, hentries]

theorem identity_eq_ofMatrix (n : ℕ) :
    (identity n : DenseMatrix α) = ofMatrix (1 : Matrix (Fin n) (Fin n) α) := by
  rw [← entries_identity]
  exact eq_ofMatrix rfl

theorem zeros_eq_ofMatrix (rows columns : ℕ) :
    (zeros rows columns : DenseMatrix α) = ofMatrix (0 : Matrix (Fin rows) (Fin columns) α) := by
  have hentries : (zeros rows columns : DenseMatrix α).entries rows columns = 0 :=
    entries_ofFn rows columns _
  rw [← hentries]
  exact eq_ofMatrix rfl

omit [CommRing α] in
theorem dimension_of_columns_eq (hinner : a.columns = b.rows) :
    b.dimension = (a.columns, b.columns) :=
  congrArg (·, b.columns) hinner.symm

/-- Products are refused for their dimensions only. -/
theorem mul_eq_error_iff (cause : Error) :
    a.mul b = .error cause ↔
      a.columns ≠ b.rows ∧ cause = .dimensionMismatch a.dimension b.dimension :=
  ite_error_eq_error_iff

/-- Sums are refused for their dimensions only. -/
theorem add_eq_error_iff (cause : Error) :
    a.add b = .error cause ↔
      a.dimension ≠ b.dimension ∧ cause = .dimensionMismatch a.dimension b.dimension :=
  ite_error_eq_error_iff

/-- An entry of a product is the sum over the inner dimension. -/
theorem exists_mul_get? (hinner : a.columns = b.rows) :
    ∃ product, a.mul b = .ok product ∧ product.dimension = (a.rows, b.columns) ∧
      ∀ row column, 1 ≤ row ∧ row ≤ a.rows → 1 ≤ column ∧ column ≤ b.columns →
        product.get? row column =
          some (∑ k : Fin a.columns, a.entry row (k + 1) * b.entry (k + 1) column) := by
  refine ⟨_, mul_eq_ofFn rfl (dimension_of_columns_eq hinner), rfl,
    fun row column hrow hcolumn => ?_⟩
  rw [get?_ofFn, if_pos ⟨hrow, hcolumn⟩]

theorem exists_add_get? (hdimension : a.dimension = b.dimension) :
    ∃ sum, a.add b = .ok sum ∧ sum.dimension = a.dimension ∧
      ∀ row column, 1 ≤ row ∧ row ≤ a.rows → 1 ≤ column ∧ column ≤ a.columns →
        sum.get? row column = some (a.entry row column + b.entry row column) := by
  refine ⟨_, if_neg (not_not.2 hdimension), rfl, fun row column hrow hcolumn => ?_⟩
  rw [get?_ofFn, if_pos ⟨hrow, hcolumn⟩]

/-- An entry of a multiple is the multiple of the entry. -/
theorem get?_scale (factor : α) {row column : ℕ} (hrow : 1 ≤ row ∧ row ≤ a.rows)
    (hcolumn : 1 ≤ column ∧ column ≤ a.columns) :
    (a.scale factor).get? row column = some (a.entry row column * factor) := by
  have hsome : a.get? row column = some (a.entry row column) := get?_eq_entry hrow hcolumn
  rw [scale, get?_map, hsome, Option.map_some]

theorem storedMul_eq_mul (h : storable a.rows b.columns ∨ a.columns ≠ b.rows) :
    a.storedMul b = a.mul b := by
  rcases h with hstorable | hinner
  · exact storedMul_of_storable hstorable
  · rw [storedMul, if_neg fun hfits => hinner hfits.1]

section Laws

variable {last : ℕ}

theorem exists_mul_assoc (ha : a.dimension = (rows, inner)) (hb : b.dimension = (inner, columns))
    (hc : c.dimension = (columns, last)) :
    ∃ ab bc abc, a.mul b = .ok ab ∧ b.mul c = .ok bc ∧ ab.mul c = .ok abc ∧
      a.mul bc = .ok abc := by
  obtain ⟨x, rfl⟩ := exists_eq_ofMatrix ha
  obtain ⟨y, rfl⟩ := exists_eq_ofMatrix hb
  obtain ⟨z, rfl⟩ := exists_eq_ofMatrix hc
  refine ⟨_, _, _, mul_ofMatrix x y, mul_ofMatrix y z, mul_ofMatrix (x * y) z, ?_⟩
  rw [mul_ofMatrix, Matrix.mul_assoc]

theorem exists_mul_add (ha : a.dimension = (rows, inner)) (hb : b.dimension = (inner, columns))
    (hc : c.dimension = (inner, columns)) :
    ∃ sum ab ac result, b.add c = .ok sum ∧ a.mul b = .ok ab ∧ a.mul c = .ok ac ∧
      a.mul sum = .ok result ∧ ab.add ac = .ok result := by
  obtain ⟨x, rfl⟩ := exists_eq_ofMatrix ha
  obtain ⟨y, rfl⟩ := exists_eq_ofMatrix hb
  obtain ⟨z, rfl⟩ := exists_eq_ofMatrix hc
  refine ⟨_, _, _, _, add_ofMatrix y z, mul_ofMatrix x y, mul_ofMatrix x z,
    mul_ofMatrix x (y + z), ?_⟩
  rw [add_ofMatrix, Matrix.mul_add]

theorem exists_add_mul (ha : a.dimension = (rows, inner)) (hb : b.dimension = (rows, inner))
    (hc : c.dimension = (inner, columns)) :
    ∃ sum ac bc result, a.add b = .ok sum ∧ a.mul c = .ok ac ∧ b.mul c = .ok bc ∧
      sum.mul c = .ok result ∧ ac.add bc = .ok result := by
  obtain ⟨x, rfl⟩ := exists_eq_ofMatrix ha
  obtain ⟨y, rfl⟩ := exists_eq_ofMatrix hb
  obtain ⟨z, rfl⟩ := exists_eq_ofMatrix hc
  refine ⟨_, _, _, _, add_ofMatrix x y, mul_ofMatrix x z, mul_ofMatrix y z,
    mul_ofMatrix (x + y) z, ?_⟩
  rw [add_ofMatrix, Matrix.add_mul]

theorem mul_identity (ha : a.dimension = (rows, columns)) : a.mul (identity columns) = .ok a := by
  obtain ⟨x, rfl⟩ := exists_eq_ofMatrix ha
  rw [identity_eq_ofMatrix, mul_ofMatrix, Matrix.mul_one]

theorem identity_mul (ha : a.dimension = (rows, columns)) : (identity rows).mul a = .ok a := by
  obtain ⟨x, rfl⟩ := exists_eq_ofMatrix ha
  rw [identity_eq_ofMatrix, mul_ofMatrix, Matrix.one_mul]

theorem exists_mul_scale (ha : a.dimension = (rows, inner)) (hb : b.dimension = (inner, columns))
    (factor : α) :
    ∃ product, a.mul b = .ok product ∧ (a.scale factor).mul b = .ok (product.scale factor) ∧
      a.mul (b.scale factor) = .ok (product.scale factor) := by
  obtain ⟨x, rfl⟩ := exists_eq_ofMatrix ha
  obtain ⟨y, rfl⟩ := exists_eq_ofMatrix hb
  refine ⟨_, mul_ofMatrix x y, ?_, ?_⟩
  · rw [scale_ofMatrix, scale_ofMatrix, mul_ofMatrix, Matrix.smul_mul]
  · rw [scale_ofMatrix, scale_ofMatrix, mul_ofMatrix, Matrix.mul_smul]

/-- Zeros change nothing in a sum, and they are made if they can be stored. -/
theorem exists_zeros? (ha : a.dimension = (rows, columns)) (h : storable rows columns = true) :
    ∃ zero, zeros? rows columns = some zero ∧ a.add zero = .ok a ∧ zero.add a = .ok a := by
  obtain ⟨x, rfl⟩ := exists_eq_ofMatrix ha
  refine ⟨_, zeros?_eq_some_iff.2 h, ?_, ?_⟩
  · rw [zeros_eq_ofMatrix, add_ofMatrix, add_zero]
  · rw [zeros_eq_ofMatrix, add_ofMatrix, zero_add]

/-- The factors change places when their product is transposed. -/
theorem exists_mul_transpose (ha : a.dimension = (rows, inner))
    (hb : b.dimension = (inner, columns)) :
    ∃ product, a.mul b = .ok product ∧ b.transpose.mul a.transpose = .ok product.transpose := by
  obtain ⟨x, rfl⟩ := exists_eq_ofMatrix ha
  obtain ⟨y, rfl⟩ := exists_eq_ofMatrix hb
  refine ⟨_, mul_ofMatrix x y, ?_⟩
  rw [transpose_ofMatrix, transpose_ofMatrix, transpose_ofMatrix, mul_ofMatrix,
    Matrix.transpose_mul]

end Laws

theorem matrixLaws (a b c : DenseMatrix α) : MatrixLaws a b c where
  mul_error := mul_eq_error_iff
  mul_entry := exists_mul_get?
  stored := storedMul_eq_mul
  add_error := add_eq_error_iff
  add_entry := exists_add_get?
  scale_entry factor := ⟨rfl, fun _ _ => get?_scale factor⟩
  mul_assoc hab hbc :=
    exists_mul_assoc rfl (dimension_of_columns_eq hab) (dimension_of_columns_eq hbc)
  mul_add hab hbc :=
    exists_mul_add rfl (dimension_of_columns_eq hab) (hbc.symm.trans (dimension_of_columns_eq hab))
  add_mul hab hac := exists_add_mul rfl hab.symm (dimension_of_columns_eq hac)
  mul_identity := mul_identity rfl
  identity_mul := identity_mul rfl
  stored_identity _ := identity?_eq_some_iff
  scale factor hab := exists_mul_scale rfl (dimension_of_columns_eq hab) factor
  transpose hab := exists_mul_transpose rfl (dimension_of_columns_eq hab)

/-- Matrices of rationals and of integers, of all shapes, obey the laws of matrix algebra: wherever
the dimensions fit, products are associative, distribute over sums on both sides, have identities as
units, pass multiples through and are transposed factor by factor. The entries of products, sums
and multiples are those of linear algebra, and a product or a sum is refused exactly where the
dimensions do not fit. -/
theorem matrixLaws_rational_and_integer :
    (∀ a b c : DenseMatrix ℚ, MatrixLaws a b c) ∧ ∀ a b c : DenseMatrix ℤ, MatrixLaws a b c :=
  ⟨matrixLaws, matrixLaws⟩

end ExactAlgebra.DenseMatrix
