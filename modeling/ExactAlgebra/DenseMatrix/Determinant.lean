import ExactAlgebra.DenseMatrix.Basic

/-!
Determinants by expansion along the first row, and the adjugate of cofactors.
-/

namespace ExactAlgebra.DenseMatrix

variable {α : Type} [Zero α] [One α] [Add α] [Sub α] [Mul α]

/-- A value with the sign of a place in the matrix. -/
def signed (row column : Nat) (value : α) : α :=
  if (row + column) % 2 = 0 then value else 0 - value

/-- The determinant of the leading part with `size` rows and columns. -/
def determinantOfSize : Nat → DenseMatrix α → α
  | 0, _ => 1
  | 1, m => m.entry 1 1
  | size + 2, m =>
      (indices (size + 2)).foldl
        (fun sum column =>
          sum + m.entry 1 column *
            signed 1 column (determinantOfSize (size + 1) (m.delete 1 column))) 0

/-- The signed determinant of what is left without a row and a column. -/
def cofactor (m : DenseMatrix α) (row column : Nat) : α :=
  signed row column (determinantOfSize (m.rows - 1) (m.delete row column))

omit [Zero α] [One α] [Add α] [Sub α] [Mul α] in
/-- The matrix is square. -/
def requireSquare (m : DenseMatrix α) : Except Error Unit :=
  if m.isSquare then .ok () else .error (.notSquare m.rows m.columns)

def determinant (m : DenseMatrix α) : Except Error α := do
  m.requireSquare
  return determinantOfSize m.rows m

/-- The adjugate of a square matrix: the cofactors with rows and columns exchanged. -/
def adjugate (m : DenseMatrix α) : Except Error (DenseMatrix α) := do
  m.requireSquare
  if m.rows = 1 then return identity 1
  else return ofFn m.rows m.columns fun row column => m.cofactor column row

end ExactAlgebra.DenseMatrix
