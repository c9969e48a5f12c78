import ExactAlgebra.DenseMatrix.Arithmetic
import ExactAlgebra.DenseMatrix.Determinant
import ExactAlgebra.Power
import ExactAlgebra.Rational.Numeral

/-!
Inverses and integer powers of square matrices. Rational entries are divided exactly; integer
entries are divided toward zero, so that the inverse of an integer matrix is exact only for
determinants one and minus one.
-/

namespace ExactAlgebra

/-- Entries that can be divided and written. -/
class MatrixEntry (α : Type) where
  quotient : α → α → α
  text : α → List Char

instance : MatrixEntry Rat := ⟨fun a b => a / b, Rational.fractionText⟩

instance : MatrixEntry Int := ⟨Int.tdiv, Rational.intText⟩

namespace DenseMatrix

variable {α : Type} [Zero α] [One α] [Add α] [Sub α] [Mul α] [MatrixEntry α] [DecidableEq α]

/-- The inverse of a square matrix with a nonzero determinant: the adjugate divided by it. -/
def inverse (m : DenseMatrix α) : Except Error (DenseMatrix α) := do
  let determinant ← m.determinant
  if determinant = 0 then .error .singular
  else do
    let adjugate ← m.adjugate
    return adjugate.map fun value => MatrixEntry.quotient value determinant

/-- The matrix that a power multiplies with itself: the inverse for negative exponents. -/
def powerBase (m : DenseMatrix α) (exponent : Int) : Except Error (DenseMatrix α) :=
  if exponent < 0 then m.inverse else .ok m

/-- The power of a square matrix, where negative powers are powers of the inverse. -/
def pow (m : DenseMatrix α) (exponent : Int) : Except Error (DenseMatrix α) := do
  m.requireSquare
  let base ← m.powerBase exponent
  powerBy mul (identity m.rows) base exponent.natAbs

end DenseMatrix

end ExactAlgebra
