import ExactAlgebra.DenseMatrix.Arithmetic
import Mathlib.Algebra.BigOperators.Fin
import Mathlib.Data.Matrix.Mul

/-!
Dense matrices by their entries. A computed matrix depends only on the values of its function inside
its dimension. Read as a function on row and column indices from zero, the entries of a product of
dense matrices are those of the matrix product.
-/

namespace ExactAlgebra

variable {α β : Type}

namespace Grid

theorem ofFn_congr {width height : ℕ} {f g : ℕ → ℕ → α}
    (h : ∀ x y, x < width → y < height → f x y = g x y) :
    ofFn width height f = ofFn width height g := by
  have hcells : (ofFn width height f).cells = (ofFn width height g).cells := by
    apply congrArg Array.ofFn
    funext i
    have hheight : 0 < height := Nat.pos_of_mul_pos_left (Nat.zero_lt_of_lt i.isLt)
    exact h _ _ (Nat.div_lt_of_lt_mul (Nat.mul_comm width height ▸ i.isLt))
      (Nat.mod_lt _ hheight)
  unfold ofFn at hcells ⊢
  simpa using hcells

theorem map_ofFn (g : α → β) (width height : ℕ) (f : ℕ → ℕ → α) :
    (ofFn width height f).map g = ofFn width height fun x y => g (f x y) := by
  simp [map, ofFn, Array.map_ofFn, Function.comp_def]

theorem inside_iff {grid : Grid α} {x y : ℕ} :
    grid.inside x y = true ↔ x < grid.width ∧ y < grid.height := by
  rw [inside, Bool.and_eq_true, decide_eq_true_eq, decide_eq_true_eq]

theorem isSome_get?_iff {grid : Grid α} {x y : ℕ} :
    (grid.get? x y).isSome ↔ x < grid.width ∧ y < grid.height := by
  rw [get?_isSome, inside_iff]

/-- Every stored cell stands at the address that its index is made of. -/
theorem getElem?_cells (grid : Grid α) {index : ℕ} (h : index < grid.cells.size) :
    grid.cells[index]? = grid.get? (index / grid.height) (index % grid.height) := by
  rw [grid.size_eq] at h
  have hheight : 0 < grid.height := Nat.pos_of_mul_pos_left (Nat.zero_lt_of_lt h)
  have hinside : grid.inside (index / grid.height) (index % grid.height) = true :=
    inside_iff.2
      ⟨Nat.div_lt_of_lt_mul (Nat.mul_comm grid.width grid.height ▸ h), Nat.mod_lt _ hheight⟩
  rw [get?, if_pos hinside, Nat.div_add_mod']

/-- Grids of the same size are equal when they have the same cells. -/
theorem eq_of_get?_eq {a b : Grid α} (hwidth : a.width = b.width) (hheight : a.height = b.height)
    (h : ∀ x y, a.inside x y → a.get? x y = b.get? x y) : a = b := by
  have hsize : a.cells.size = b.cells.size := by
    rw [a.size_eq, b.size_eq, hwidth, hheight]
  have hcells : a.cells = b.cells := by
    apply Array.ext_getElem?
    intro index
    by_cases hindex : index < a.cells.size
    · have hcell := h (index / a.height) (index % a.height)
      rw [a.getElem?_cells hindex, b.getElem?_cells (hsize ▸ hindex), ← hheight]
      apply hcell
      rw [← get?_isSome, ← a.getElem?_cells hindex]
      simp [hindex]
    · rw [Array.getElem?_eq_none (by omega), Array.getElem?_eq_none (by omega)]
  cases a
  cases b
  simp_all

end Grid

namespace DenseMatrix

/-- Computed matrices are equal when their functions agree inside the dimension. -/
theorem ofFn_congr {rows columns : ℕ} {f g : ℕ → ℕ → α}
    (h : ∀ (i : Fin rows) (j : Fin columns), f (i + 1) (j + 1) = g (i + 1) (j + 1)) :
    ofFn rows columns f = ofFn rows columns g :=
  congrArg mk (Grid.ofFn_congr fun x y hx hy => h ⟨y, hy⟩ ⟨x, hx⟩)

theorem map_ofFn (g : α → β) (rows columns : ℕ) (f : ℕ → ℕ → α) :
    (ofFn rows columns f).map g = ofFn rows columns fun row column => g (f row column) :=
  congrArg mk (Grid.map_ofFn g columns rows fun x y => f (y + 1) (x + 1))

theorem get?_eq_none_iff {m : DenseMatrix α} {row column : ℕ} : m.get? row column = none ↔
    ¬((1 ≤ row ∧ row ≤ m.rows) ∧ 1 ≤ column ∧ column ≤ m.columns) := by
  unfold get?
  split
  · simp only [true_iff]
    omega
  · rw [← Option.not_isSome_iff_eq_none, Grid.isSome_get?_iff]
    change ¬(column - 1 < m.columns ∧ row - 1 < m.rows) ↔ _
    omega

section Entries

variable [Zero α]

theorem get?_eq_entry {m : DenseMatrix α} {row column : ℕ} (hrow : 1 ≤ row ∧ row ≤ m.rows)
    (hcolumn : 1 ≤ column ∧ column ≤ m.columns) :
    m.get? row column = some (m.entry row column) := by
  have hsome : m.get? row column ≠ none := mt get?_eq_none_iff.1 (not_not.2 ⟨hrow, hcolumn⟩)
  obtain ⟨value, hvalue⟩ := Option.ne_none_iff_exists'.1 hsome
  rw [entry, hvalue, Option.getD_some]

/-- The leading entries, by row and column from zero. -/
def entries (rows columns : ℕ) (m : DenseMatrix α) : Matrix (Fin rows) (Fin columns) α :=
  Matrix.of fun i j => m.entry (i + 1) (j + 1)

@[simp] theorem entries_apply {rows columns : ℕ} (m : DenseMatrix α) (i : Fin rows)
    (j : Fin columns) : m.entries rows columns i j = m.entry (i + 1) (j + 1) := rfl

@[simp] theorem entries_ofFn (rows columns : ℕ) (f : ℕ → ℕ → α) :
    (ofFn rows columns f).entries rows columns =
      Matrix.of fun (i : Fin rows) (j : Fin columns) => f (i + 1) (j + 1) := by
  ext i j
  exact entry_ofFn f ⟨Nat.le_add_left 1 i, i.isLt⟩ ⟨Nat.le_add_left 1 j, j.isLt⟩

/-- Matrices of the same dimension are equal when their entries are. -/
theorem eq_of_entries_eq {a b : DenseMatrix α} {rows columns : ℕ}
    (ha : a.dimension = (rows, columns)) (hb : b.dimension = (rows, columns))
    (h : a.entries rows columns = b.entries rows columns) : a = b := by
  obtain ⟨rfl, rfl⟩ := Prod.mk.inj ha
  obtain ⟨hrows, hcolumns⟩ := Prod.mk.inj hb
  refine congrArg mk (Grid.eq_of_get?_eq hcolumns.symm hrows.symm fun x y hinside => ?_)
  have hxy : x < a.columns ∧ y < a.rows := Grid.inside_iff.1 hinside
  have hinside' : b.grid.inside x y = true :=
    Grid.inside_iff.2 ⟨hxy.1.trans_eq hcolumns.symm, hxy.2.trans_eq hrows.symm⟩
  obtain ⟨value, hvalue⟩ := Option.isSome_iff_exists.1 ((a.grid.get?_isSome x y).trans hinside)
  obtain ⟨value', hvalue'⟩ := Option.isSome_iff_exists.1 ((b.grid.get?_isSome x y).trans hinside')
  have hentry : (a.grid.get? x y).getD 0 = (b.grid.get? x y).getD 0 :=
    congrFun (congrFun h ⟨y, hxy.2⟩) ⟨x, hxy.1⟩
  rw [hvalue, hvalue'] at hentry ⊢
  exact congrArg some hentry

/-- A function that keeps zero passes through to the entries. -/
theorem entries_map [Zero β] {g : α → β} (hg : g 0 = 0) (rows columns : ℕ) (m : DenseMatrix α) :
    (m.map g).entries rows columns = (m.entries rows columns).map g := by
  ext i j
  change ((m.grid.map g).get? j i).getD 0 = g ((m.grid.get? j i).getD 0)
  rw [Grid.get?_map]
  rcases m.grid.get? j i with _ | value
  · exact hg.symm
  · rfl

end Entries

/-- Adding up along the indices is the sum over them. -/
theorem foldl_indices [AddCommMonoid α] (f : ℕ → α) (count : ℕ) :
    (indices count).foldl (fun sum index => sum + f index) 0 = ∑ i : Fin count, f (i + 1) := by
  induction count with
  | zero => rfl
  | succ count ih =>
      have hindices : indices (count + 1) = indices count ++ [1 + count] := List.range'_1_concat
      rw [hindices, List.foldl_append, ih, Fin.sum_univ_castSucc]
      simp [Nat.add_comm]

/-- The product of a row and a column of the same length. -/
theorem dotSum_map_indices [NonUnitalNonAssocSemiring α] (f g : ℕ → α) (count : ℕ) :
    dotSum ((indices count).map f) ((indices count).map g) =
      ∑ k : Fin count, f (k + 1) * g (k + 1) := by
  have hproducts : List.zipWith (· * ·) ((indices count).map f) ((indices count).map g) =
      (indices count).map fun index => f index * g index := by
    rw [List.zipWith_map, List.zipWith_self]
  rw [dotSum, hproducts, List.foldl_map, foldl_indices fun index => f index * g index]

section Products

variable [NonUnitalNonAssocSemiring α] {rows inner columns : ℕ} {a b : DenseMatrix α}

/-- The product of matrices that fit, by its sums. -/
theorem mul_eq_ofFn (ha : a.dimension = (rows, inner)) (hb : b.dimension = (inner, columns)) :
    a.mul b = .ok (ofFn rows columns fun row column =>
      ∑ k : Fin inner, a.entry row (k + 1) * b.entry (k + 1) column) := by
  obtain ⟨rfl, rfl⟩ := Prod.mk.inj ha
  obtain ⟨hinner, rfl⟩ := Prod.mk.inj hb
  rw [mul, if_neg (not_not.2 hinner.symm)]
  simp only [row, column, hinner, dotSum_map_indices]

/-- Matrices that fit have a product, with the entries of the matrix product. -/
theorem exists_mul (ha : a.dimension = (rows, inner)) (hb : b.dimension = (inner, columns)) :
    ∃ product, a.mul b = .ok product ∧ product.dimension = (rows, columns) ∧
      product.entries rows columns = a.entries rows inner * b.entries inner columns := by
  refine ⟨_, mul_eq_ofFn ha hb, rfl, ?_⟩
  rw [entries_ofFn]
  rfl

/-- The product of matrices that fit is the matrix with the entries of the matrix product. -/
theorem mul_eq_ok (ha : a.dimension = (rows, inner)) (hb : b.dimension = (inner, columns))
    {f : ℕ → ℕ → α}
    (hf : a.entries rows inner * b.entries inner columns =
      Matrix.of fun (i : Fin rows) (j : Fin columns) => f (i + 1) (j + 1)) :
    a.mul b = .ok (ofFn rows columns f) := by
  rw [mul_eq_ofFn ha hb]
  exact congrArg Except.ok (ofFn_congr fun i j => congrFun (congrFun hf i) j)

end Products

end DenseMatrix

end ExactAlgebra
