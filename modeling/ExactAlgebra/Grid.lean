/-!
Rectangular arrays, stored column after column. A cell is addressed by its column `x` and its row
`y`, both from zero, and stands at index `x * height + y`. An array with few cells may have very
many columns without rows, or rows without columns.
-/

namespace ExactAlgebra

/-- Columns side by side, each of `height` cells. -/
structure Grid (α : Type) where
  width : Nat
  height : Nat
  cells : Array α
  size_eq : cells.size = width * height
  deriving DecidableEq

/-- The number of cells that are stored, and of columns or rows that are listed, stays below this.
-/
def sizeLimit : Nat := Nat.pow 2 57

namespace Grid

variable {α β : Type}

/-- A grid of given cells, if there are as many as it needs. -/
def ofCells? (width height : Nat) (cells : Array α) : Option (Grid α) :=
  if h : cells.size = width * height then some ⟨width, height, cells, h⟩ else none

/-- A grid with the cells computed from their columns and rows. -/
def ofFn (width height : Nat) (f : Nat → Nat → α) : Grid α :=
  ⟨width, height, Array.ofFn fun i : Fin (width * height) => f (i.val / height) (i.val % height),
    Array.size_ofFn⟩

/-- A computed grid, if it can be stored. -/
def ofFn? (width height : Nat) (f : Nat → Nat → α) : Option (Grid α) :=
  if width * height < sizeLimit then some (ofFn width height f) else none

theorem ofFn?_eq_some_iff {width height : Nat} {f : Nat → Nat → α} :
    ofFn? width height f = some (ofFn width height f) ↔ width * height < sizeLimit := by
  simp [ofFn?]

/-- The address is inside. -/
def inside (grid : Grid α) (x y : Nat) : Bool :=
  decide (x < grid.width) && decide (y < grid.height)

/-- Addresses inside have indices inside. -/
theorem index_lt {grid : Grid α} {x y : Nat} (h : grid.inside x y = true) :
    x * grid.height + y < grid.cells.size := by
  simp only [inside, Bool.and_eq_true, decide_eq_true_eq] at h
  rw [grid.size_eq]
  calc x * grid.height + y < x * grid.height + grid.height := by omega
    _ = (x + 1) * grid.height := (Nat.succ_mul x grid.height).symm
    _ ≤ grid.width * grid.height := Nat.mul_le_mul_right _ h.1

def get? (grid : Grid α) (x y : Nat) : Option α :=
  if grid.inside x y then grid.cells[x * grid.height + y]? else none

def set? (grid : Grid α) (x y : Nat) (value : α) : Option (Grid α) :=
  if grid.inside x y then
    some
      { grid with
        cells := grid.cells.setIfInBounds (x * grid.height + y) value
        size_eq := by rw [Array.size_setIfInBounds, grid.size_eq] }
  else none

def map (f : α → β) (grid : Grid α) : Grid β :=
  ⟨grid.width, grid.height, grid.cells.map f, by rw [Array.size_map, grid.size_eq]⟩

@[simp] theorem inside_ofFn (width height : Nat) (f : Nat → Nat → α) (x y : Nat) :
    (ofFn width height f).inside x y = (decide (x < width) && decide (y < height)) := rfl

/-- A computed grid holds the value of its function in every cell. -/
theorem get?_ofFn (width height : Nat) (f : Nat → Nat → α) (x y : Nat) :
    (ofFn width height f).get? x y = if x < width ∧ y < height then some (f x y) else none := by
  unfold get?
  by_cases h : x < width ∧ y < height
  · have hinside : (ofFn width height f).inside x y = true := by simp [h]
    have hlt := index_lt hinside
    have hdiv : (x * height + y) / height = x := by
      rw [Nat.mul_comm, Nat.mul_add_div (by omega), Nat.div_eq_of_lt h.2, Nat.add_zero]
    have hmod : (x * height + y) % height = y := by
      rw [Nat.mul_comm, Nat.mul_add_mod, Nat.mod_eq_of_lt h.2]
    rw [if_pos hinside, if_pos h, Array.getElem?_eq_getElem hlt]
    simp [ofFn, hdiv, hmod]
  · have hinside : (ofFn width height f).inside x y = false := by
      rw [inside_ofFn, Bool.and_eq_false_iff, decide_eq_false_iff_not, decide_eq_false_iff_not]
      omega
    simp [hinside, h]

@[simp] theorem get?_map (f : α → β) (grid : Grid α) (x y : Nat) :
    (grid.map f).get? x y = (grid.get? x y).map f := by
  have hinside : (grid.map f).inside x y = grid.inside x y := rfl
  unfold get?
  rw [hinside]
  split
  · simp [map]
  · rfl

theorem get?_isSome (grid : Grid α) (x y : Nat) :
    (grid.get? x y).isSome = grid.inside x y := by
  unfold get?
  by_cases h : grid.inside x y
  · simp [h, index_lt h]
  · simp [h]

end Grid

end ExactAlgebra
