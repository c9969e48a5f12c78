import ExactAlgebra.DenseMatrix.Power

/-!
The written form of a matrix: one line for each row between bars, with the entries of a column
aligned on the right and one blank between columns.
-/

namespace ExactAlgebra.DenseMatrix

variable {α : Type}

/-- The largest of some numbers, or zero. -/
def largest (numbers : List Nat) : Nat := numbers.foldl max 0

/-- Lists joined by a separator. -/
def joined (separator : Char) : List (List Char) → List Char
  | [] => []
  | [last] => last
  | first :: rest => first ++ separator :: joined separator rest

/-- The cell of a written matrix. -/
def cell (cells : DenseMatrix (List Char)) (row column : Nat) : List Char :=
  (cells.get? row column).getD []

def columnWidth (cells : DenseMatrix (List Char)) (column : Nat) : Nat :=
  largest ((indices cells.rows).map fun row => (cells.cell row column).length)

def line (cells : DenseMatrix (List Char)) (row : Nat) : List Char :=
  let padded := (indices cells.columns).map fun column =>
    (cells.cell row column).leftpad (cells.columnWidth column) ' '
  '|' :: joined ' ' padded ++ ['|']

def text [MatrixEntry α] (m : DenseMatrix α) : List Char :=
  let cells := m.map MatrixEntry.text
  joined '\n' ((indices cells.rows).map cells.line)

/-- Rows and columns can be gone through one after the other. -/
def listable (m : DenseMatrix α) : Bool :=
  decide (m.rows < sizeLimit) && decide (m.columns < sizeLimit)

instance [MatrixEntry α] : ToString (DenseMatrix α) := ⟨fun m => String.ofList m.text⟩

/-- The written form, if rows and columns can be listed. -/
def written? [MatrixEntry α] (m : DenseMatrix α) : Option String :=
  if m.listable then some (toString m) else none

end ExactAlgebra.DenseMatrix
