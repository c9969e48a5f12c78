import ExactAlgebra.DenseMatrix.Basic

/-!
Sums, products and multiples of matrices, where the dimensions have to fit.
-/

namespace ExactAlgebra.DenseMatrix

variable {α : Type} [Zero α]

/-- The sum of the products of entries in the same place, as far as both lists go. -/
def dotSum [Add α] [Mul α] (a b : List α) : α :=
  (List.zipWith (· * ·) a b).foldl (· + ·) 0

def dot [Add α] [Mul α] (a b : List α) : Except Error α :=
  if a.length ≠ b.length then .error (.dimensionMismatch (1, a.length) (1, b.length))
  else .ok (dotSum a b)

def scale [Mul α] (m : DenseMatrix α) (factor : α) : DenseMatrix α :=
  m.map (· * factor)

def add [Add α] (a b : DenseMatrix α) : Except Error (DenseMatrix α) :=
  if a.dimension ≠ b.dimension then .error (.dimensionMismatch a.dimension b.dimension)
  else .ok (ofFn a.rows a.columns fun row column => a.entry row column + b.entry row column)

/-- The product of a matrix with one that has as many rows as the first has columns. -/
def mul [Add α] [Mul α] (a b : DenseMatrix α) : Except Error (DenseMatrix α) :=
  if a.columns ≠ b.rows then .error (.dimensionMismatch a.dimension b.dimension)
  else .ok (ofFn a.rows b.columns fun row column => dotSum (a.row row) (b.column column))

/-- The product, if it can be stored. The dimensions have to fit first. -/
def storedMul [Add α] [Mul α] (a b : DenseMatrix α) : Except Error (DenseMatrix α) :=
  if a.columns = b.rows ∧ !storable a.rows b.columns then .error .tooLarge else a.mul b

/-- Storable products are products. -/
theorem storedMul_of_storable [Add α] [Mul α] {a b : DenseMatrix α}
    (h : storable a.rows b.columns = true) : a.storedMul b = a.mul b := by
  simp [storedMul, h]

end ExactAlgebra.DenseMatrix
