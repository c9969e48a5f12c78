import ExactAlgebra.Error
import ExactAlgebra.Grid

/-!
Matrices with rows and columns counted from one. A matrix may lack rows or columns altogether. The
grid below it has the matrix columns as its columns.
-/

namespace ExactAlgebra

/-- A rectangle of entries. -/
structure DenseMatrix (α : Type) where
  grid : Grid α
  deriving DecidableEq

namespace DenseMatrix

variable {α β : Type}

def rows (m : DenseMatrix α) : Nat := m.grid.height

def columns (m : DenseMatrix α) : Nat := m.grid.width

def dimension (m : DenseMatrix α) : Nat × Nat := (m.rows, m.columns)

/-- There are as many rows as columns. -/
def isSquare (m : DenseMatrix α) : Bool := m.rows == m.columns

/-- The numbers of rows or columns. -/
def indices (count : Nat) : List Nat := List.range' 1 count

/-- A matrix with the entries computed from their rows and columns. -/
def ofFn (rows columns : Nat) (f : Nat → Nat → α) : DenseMatrix α :=
  ⟨Grid.ofFn columns rows fun x y => f (y + 1) (x + 1)⟩

/-- A matrix with so many rows and columns can be stored. -/
def storable (rows columns : Nat) : Bool := decide (columns * rows < sizeLimit)

def get? (m : DenseMatrix α) (row column : Nat) : Option α :=
  if row = 0 ∨ column = 0 then none else m.grid.get? (column - 1) (row - 1)

/-- A computed matrix has the value of its function in every place. -/
theorem get?_ofFn (rows columns : Nat) (f : Nat → Nat → α) (row column : Nat) :
    (ofFn rows columns f).get? row column =
      if (1 ≤ row ∧ row ≤ rows) ∧ 1 ≤ column ∧ column ≤ columns then some (f row column)
      else none := by
  unfold get? ofFn
  rw [Grid.get?_ofFn]
  by_cases hzero : row = 0 ∨ column = 0
  · rw [if_pos hzero, if_neg (by omega)]
  · rw [if_neg hzero]
    have hrow : row - 1 + 1 = row := by omega
    have hcolumn : column - 1 + 1 = column := by omega
    rw [hrow, hcolumn]
    by_cases hin : column - 1 < columns ∧ row - 1 < rows
    · rw [if_pos hin, if_pos (by omega)]
    · rw [if_neg hin, if_neg (by omega)]

def set? (m : DenseMatrix α) (row column : Nat) (value : α) : Option (DenseMatrix α) :=
  if row = 0 ∨ column = 0 then none
  else (m.grid.set? (column - 1) (row - 1) value).map DenseMatrix.mk

def map (f : α → β) (m : DenseMatrix α) : DenseMatrix β := ⟨m.grid.map f⟩

theorem get?_map (f : α → β) (m : DenseMatrix α) (row column : Nat) :
    (m.map f).get? row column = (m.get? row column).map f := by
  unfold get?
  split
  · rfl
  · exact Grid.get?_map f m.grid _ _

section Entries

variable [Zero α]

/-- The entry in a row and a column, or zero outside. -/
def entry (m : DenseMatrix α) (row column : Nat) : α := (m.get? row column).getD 0

theorem entry_ofFn {rows columns row column : Nat} (f : Nat → Nat → α)
    (hrow : 1 ≤ row ∧ row ≤ rows) (hcolumn : 1 ≤ column ∧ column ≤ columns) :
    (ofFn rows columns f).entry row column = f row column := by
  rw [entry, get?_ofFn, if_pos ⟨hrow, hcolumn⟩, Option.getD_some]

def row (m : DenseMatrix α) (row : Nat) : List α :=
  (indices m.columns).map fun column => m.entry row column

def column (m : DenseMatrix α) (column : Nat) : List α :=
  (indices m.rows).map fun row => m.entry row column

/-- The entries of a row from left to right, where all of them exist. -/
def row? (m : DenseMatrix α) (row : Nat) : Option (List α) :=
  if m.columns = 0 ∨ (1 ≤ row ∧ row ≤ m.rows) then some (m.row row) else none

/-- The entries of a column from top to bottom, where all of them exist. -/
def column? (m : DenseMatrix α) (column : Nat) : Option (List α) :=
  if m.rows = 0 ∨ (1 ≤ column ∧ column ≤ m.columns) then some (m.column column) else none

/-- A matrix with the given rows, which have equal lengths and are not empty. -/
def ofRows (rows : List (List α)) : Except Error (DenseMatrix α) :=
  let columns := (rows.head?.map List.length).getD 0
  if columns = 0 then .error .emptyInput
  else
    match rows.find? (fun row => row.length != columns) with
    | some row => .error (.dimensionMismatch (1, columns) (1, row.length))
    | none =>
        .ok (ofFn rows.length columns fun i j =>
          ((rows[i - 1]?.bind fun row => row[j - 1]?).getD 0))

def zeros (rows columns : Nat) : DenseMatrix α := ofFn rows columns fun _ _ => 0

/-- A matrix of zeros, if it can be stored. -/
def zeros? (rows columns : Nat) : Option (DenseMatrix α) :=
  if storable rows columns then some (zeros rows columns) else none

theorem zeros?_eq_some_iff {rows columns : Nat} :
    zeros? rows columns = some (zeros rows columns : DenseMatrix α) ↔ storable rows columns := by
  simp [zeros?]

/-- Ones on the diagonal and zeros elsewhere. -/
def identity [One α] (size : Nat) : DenseMatrix α :=
  ofFn size size fun row column => if row = column then 1 else 0

/-- An identity matrix, if it can be stored. -/
def identity? [One α] (size : Nat) : Option (DenseMatrix α) :=
  if storable size size then some (identity size) else none

theorem identity?_eq_some_iff [One α] {size : Nat} :
    identity? size = some (identity size : DenseMatrix α) ↔ storable size size := by
  simp [identity?]

def transpose (m : DenseMatrix α) : DenseMatrix α :=
  ofFn m.columns m.rows fun row column => m.entry column row

/-- The matrix without a row and a column. -/
def delete (m : DenseMatrix α) (row column : Nat) : DenseMatrix α :=
  ofFn (m.rows - 1) (m.columns - 1) fun i j =>
    m.entry (if row ≤ i then i + 1 else i) (if column ≤ j then j + 1 else j)

/-- The matrix without one of its rows and one of its columns. -/
def minor? (m : DenseMatrix α) (row column : Nat) : Option (DenseMatrix α) :=
  if (1 ≤ row ∧ row ≤ m.rows) ∧ 1 ≤ column ∧ column ≤ m.columns then some (m.delete row column)
  else none

end Entries

end DenseMatrix

end ExactAlgebra
