import ExactAlgebra.Proofs.DenseMatrix.Determinant
import ExactAlgebra.Proofs.Grid.Writes

/-!
Matrices as tables. A matrix of given rows has these as its rows and their entries in the same place
as its columns, although it is stored column after column. Setting an entry changes this entry of
one row, of one column and of the transpose, and nothing else.
-/

namespace ExactAlgebra.DenseMatrix

variable {α : Type} [Zero α]

/-- A matrix with the rows of a table, which all have the same length. -/
structure IsTable (rows : List (List α)) (length : ℕ) (m : DenseMatrix α) : Prop where
  dimension_eq : m.dimension = (rows.length, length)
  row? : ∀ i, i < rows.length → m.row? (i + 1) = rows[i]?
  column? : ∀ j, j < length → m.column? (j + 1) = rows.mapM (·[j]?)
  get?_succ : ∀ i j, m.get? (i + 1) (j + 1) = rows[i]?.bind (·[j]?)
  get?_eq_none : ∀ row column, m.get? row column = none ↔
    ¬((1 ≤ row ∧ row ≤ rows.length) ∧ 1 ≤ column ∧ column ≤ length)

/-- A matrix that differs from another one in no more than one entry, seen by entries, by rows, by
columns and transposed. -/
structure DiffersAt (m : DenseMatrix α) (row column : ℕ) (value : α) (next : DenseMatrix α) :
    Prop where
  dimension_eq : next.dimension = m.dimension
  get? : ∀ i j, next.get? i j = if i = row ∧ j = column then some value else m.get? i j
  row? : ∀ i, next.row? i =
    if i = row then (m.row? i).map (·.set (column - 1) value) else m.row? i
  column? : ∀ j, next.column? j =
    if j = column then (m.column? j).map (·.set (row - 1) value) else m.column? j
  transpose : m.transpose.set? column row value = some next.transpose

variable {m next : DenseMatrix α} {row column : ℕ} {value : α}

section Indices

omit [Zero α]

theorem mem_indices {index count : ℕ} : index ∈ indices count ↔ 1 ≤ index ∧ index ≤ count := by
  rw [indices, List.mem_range'_1]
  omega

@[simp] theorem length_indices (count : ℕ) : (indices count).length = count := List.length_range'

theorem exists_indices_eq_append {k count : ℕ} (h : k < count) :
    ∃ later, indices count = indices k ++ (k + 1) :: later := by
  obtain ⟨rest, rfl⟩ := Nat.exists_eq_add_of_lt h
  refine ⟨List.range' (k + 2) rest, ?_⟩
  rw [indices, indices, Nat.add_assoc, ← List.range'_append_1, List.range'_succ, Nat.add_comm 1 k]

theorem getElem?_map_indices (f : ℕ → α) (count k : ℕ) :
    ((indices count).map f)[k]? = if k < count then some (f (k + 1)) else none := by
  rw [List.getElem?_map, indices]
  by_cases hk : k < count
  · rw [List.getElem?_range' hk, Nat.one_mul, Nat.add_comm, Option.map_some, if_pos hk]
  · rw [List.getElem?_eq_none (by rw [List.length_range']; omega), Option.map_none, if_neg hk]

theorem map_indices_eq {list : List α} {f : ℕ → α} {count : ℕ} (hlength : list.length = count)
    (h : ∀ k < count, some (f (k + 1)) = list[k]?) : (indices count).map f = list := by
  apply List.ext_getElem?
  intro k
  rw [getElem?_map_indices]
  by_cases hk : k < count
  · rw [if_pos hk, h k hk]
  · rw [if_neg hk, List.getElem?_eq_none (by omega)]

/-- A function changed at one index gives a list changed in one place. -/
theorem map_indices_update {f g : ℕ → α} {index : ℕ} (hindex : 1 ≤ index)
    (h : ∀ k, g k = if k = index then value else f k) (count : ℕ) :
    (indices count).map g = ((indices count).map f).set (index - 1) value := by
  refine map_indices_eq (by simp) fun k hk => ?_
  rw [List.getElem?_set, getElem?_map_indices, if_pos hk, h]
  by_cases hsame : k + 1 = index
  · rw [if_pos hsame, if_pos (by omega), if_pos (by simp; omega)]
  · rw [if_neg hsame, if_neg (by omega)]

end Indices

section Set

omit [Zero α] in
/-- Setting an entry that exists changes nothing but this entry. -/
theorem exists_set? (hrow : 1 ≤ row ∧ row ≤ m.rows) (hcolumn : 1 ≤ column ∧ column ≤ m.columns)
    (value : α) :
    ∃ next, m.set? row column value = some next ∧ next.dimension = m.dimension ∧
      ∀ i j, next.get? i j = if i = row ∧ j = column then some value else m.get? i j := by
  have hinside : m.grid.inside (column - 1) (row - 1) = true :=
    Grid.inside_iff.2 (by change column - 1 < m.columns ∧ row - 1 < m.rows; omega)
  obtain ⟨grid, hset, hgrid⟩ := Grid.exists_set? hinside value
  refine ⟨⟨grid⟩, ?_, Prod.ext hgrid.height hgrid.width, fun i j => ?_⟩
  · rw [set?, if_neg (by omega), hset, Option.map_some]
  · by_cases hzero : i = 0 ∨ j = 0
    · rw [get?, get?, if_pos hzero, if_neg (by omega), if_pos hzero]
    · rw [get?, get?, if_neg hzero, if_neg hzero, hgrid.get?]
      exact if_congr (by omega) rfl rfl

theorem get?_transpose (m : DenseMatrix α) (row column : ℕ) :
    m.transpose.get? row column = m.get? column row := by
  rw [transpose, get?_ofFn, entry]
  by_cases hinside : (1 ≤ row ∧ row ≤ m.columns) ∧ 1 ≤ column ∧ column ≤ m.rows
  · have hsome := mt get?_eq_none_iff.1 (not_not.2 hinside.symm)
    obtain ⟨value, hvalue⟩ := Option.ne_none_iff_exists'.1 hsome
    rw [if_pos hinside, hvalue, Option.getD_some]
  · rw [if_neg hinside, get?_eq_none_iff.2 (mt And.symm hinside)]

/-- Columns are the rows of the transpose. -/
theorem row?_transpose (m : DenseMatrix α) (column : ℕ) :
    m.transpose.row? column = m.column? column := by
  have hentries : m.transpose.row column = m.column column :=
    List.map_congr_left fun row _ => congrArg (Option.getD · 0) (get?_transpose m column row)
  rw [row?, column?, hentries]
  rfl

/-- Matrices are equal when they have the same entries. -/
theorem eq_of_get?_eq {a b : DenseMatrix α} (hdimension : a.dimension = b.dimension)
    (h : ∀ row column, a.get? row column = b.get? row column) : a = b := by
  refine eq_of_entries_eq hdimension rfl ?_
  ext i j
  exact congrArg (Option.getD · 0) (h _ _)

/-- Matrices are equal when they have the same rows. -/
theorem eq_of_row_eq {a b : DenseMatrix α} (hdimension : a.dimension = b.dimension)
    (h : ∀ i < a.rows, a.row (i + 1) = b.row (i + 1)) : a = b := by
  obtain ⟨hrows, hcolumns⟩ := Prod.mk.inj hdimension
  refine eq_of_entries_eq rfl hdimension.symm ?_
  ext i j
  have hentry := congrArg (·[j.val]?) (h i i.isLt)
  simp only [DenseMatrix.row, ← hcolumns, getElem?_map_indices, if_pos j.isLt] at hentry
  exact Option.some.inj hentry

variable (hget : ∀ i j, next.get? i j = if i = row ∧ j = column then some value else m.get? i j)

include hget

theorem get?_transpose_eq_of_get? (i j : ℕ) :
    next.transpose.get? i j =
      if i = column ∧ j = row then some value else m.transpose.get? i j := by
  rw [get?_transpose, get?_transpose, hget]
  exact if_congr and_comm rfl rfl

variable (hdimension : next.dimension = m.dimension)

include hdimension

theorem row?_eq_of_get? (hcolumn : 1 ≤ column) (i : ℕ) :
    next.row? i = if i = row then (m.row? i).map (·.set (column - 1) value) else m.row? i := by
  obtain ⟨hrows, hcolumns⟩ := Prod.mk.inj hdimension
  rw [row?, row?, DenseMatrix.row, DenseMatrix.row, hrows, hcolumns]
  by_cases hi : i = row
  · have hentry : ∀ j, next.entry i j = if j = column then value else m.entry i j := by
      intro j
      rw [entry, hget]
      by_cases hj : j = column <;> simp [hi, hj, entry]
    rw [if_pos hi, map_indices_update hcolumn hentry]
    split <;> rfl
  · have hentry : next.entry i = m.entry i := by
      funext j
      rw [entry, hget, if_neg fun hsame => hi hsame.1, entry]
    rw [if_neg hi, hentry]

/-- A changed entry is a changed entry of one row, of one column and of the transpose. -/
theorem differsAt_of_get? (hrow : 1 ≤ row ∧ row ≤ m.rows)
    (hcolumn : 1 ≤ column ∧ column ≤ m.columns) : DiffersAt m row column value next := by
  -- Columns are rows of the transpose, in which the two coordinates have changed places.
  have htranspose : next.transpose.dimension = m.transpose.dimension :=
    congrArg Prod.swap hdimension
  have hget' := get?_transpose_eq_of_get? hget
  refine ⟨hdimension, hget, row?_eq_of_get? hget hdimension hcolumn.1, fun j => ?_, ?_⟩
  · rw [← row?_transpose, ← row?_transpose, row?_eq_of_get? hget' htranspose hrow.1]
  · have hcolumn' : 1 ≤ column ∧ column ≤ m.transpose.rows := hcolumn
    have hrow' : 1 ≤ row ∧ row ≤ m.transpose.columns := hrow
    obtain ⟨other, hset, hother, hgetOther⟩ := exists_set? hcolumn' hrow' value
    rw [hset, eq_of_get?_eq (hother.trans htranspose.symm) fun i j => ?_]
    rw [hgetOther, hget']

end Set

section Rows

variable {rows : List (List α)} {length : ℕ}

theorem exists_ofRows (hrows : rows ≠ []) (hlength : length ≠ 0)
    (h : ∀ row ∈ rows, row.length = length) :
    ∃ m, ofRows rows = .ok m ∧ m.dimension = (rows.length, length) ∧
      ∀ i j, m.get? (i + 1) (j + 1) = rows[i]?.bind (·[j]?) := by
  have hcolumns : (rows.head?.map List.length).getD 0 = length := by
    obtain ⟨first, rest, rfl⟩ := List.exists_cons_of_ne_nil hrows
    exact h first List.mem_cons_self
  have hfind : rows.find? (fun row => row.length != length) = none :=
    List.find?_eq_none.2 fun row hrow => by simp [h row hrow]
  refine ⟨ofFn rows.length length fun i j =>
    (rows[i - 1]?.bind fun row => row[j - 1]?).getD 0, ?_, rfl, fun i j => ?_⟩
  · simp only [ofRows, hcolumns, if_neg hlength, hfind]
  · rw [get?_ofFn, Nat.add_sub_cancel, Nat.add_sub_cancel]
    by_cases hi : i < rows.length
    · have hrow := h rows[i] (List.getElem_mem hi)
      rw [List.getElem?_eq_getElem hi, Option.bind_some]
      split
      · rw [List.getElem?_eq_getElem (by omega), Option.getD_some]
      · rw [List.getElem?_eq_none (by omega)]
    · rw [if_neg (by omega), List.getElem?_eq_none (by omega), Option.bind_none]

theorem mapM_getElem? {j : ℕ} (h : ∀ row ∈ rows, j < row.length) :
    rows.mapM (·[j]?) = some (rows.map fun row => row[j]?.getD 0) := by
  induction rows with
  | nil => rfl
  | cons row rows ih =>
      rw [List.mapM_cons, ih fun other hother => h other (List.mem_cons_of_mem _ hother),
        List.getElem?_eq_getElem (h row List.mem_cons_self), List.map_cons,
        List.getElem?_eq_getElem (h row List.mem_cons_self)]
      rfl

/-- A matrix with the entries of a table has its rows and columns. -/
theorem isTable_of_get? (h : ∀ row ∈ rows, row.length = length)
    (hdimension : m.dimension = (rows.length, length))
    (hget : ∀ i j, m.get? (i + 1) (j + 1) = rows[i]?.bind (·[j]?)) : IsTable rows length m := by
  obtain ⟨hrows, hcolumns⟩ := Prod.mk.inj hdimension
  have hentry : ∀ i j, m.entry (i + 1) (j + 1) = (rows[i]?.bind (·[j]?)).getD 0 := fun i j =>
    congrArg (Option.getD · 0) (hget i j)
  refine ⟨hdimension, fun i hi => ?_, fun j hj => ?_, hget, fun row column => ?_⟩
  · have hrow := h rows[i] (List.getElem_mem hi)
    rw [row?, if_pos (by omega), List.getElem?_eq_getElem hi]
    refine congrArg some (map_indices_eq (hrow.trans hcolumns.symm) fun k hk => ?_)
    rw [hentry, List.getElem?_eq_getElem hi, Option.bind_some,
      List.getElem?_eq_getElem (by omega), Option.getD_some]
  · have hinside : ∀ row ∈ rows, j < row.length := fun row hrow => hj.trans_eq (h row hrow).symm
    rw [column?, if_pos (by omega), mapM_getElem? hinside]
    refine congrArg some (map_indices_eq (by rw [List.length_map, hrows]) fun k hk => ?_)
    rw [hentry, List.getElem?_map, List.getElem?_eq_getElem (by omega), Option.bind_some,
      Option.map_some]
  · rw [get?_eq_none_iff, hrows, hcolumns]

end Rows

/-- Storage column after column is a function of two coordinates. A computed grid, which is made if
and only if it can be stored, and a grid of given cells hold at every address inside what was
written there last, or else the value they began with, and every write inside changes one cell and
no size. So a matrix of rows of the same length, with neither rows nor lengths missing, has these as
its rows and their entries in the same place as its columns, and setting an entry of any matrix
changes this entry of one row, of one column and of the transpose. -/
theorem storage_isTwoDimensional (α β : Type) [Zero β] :
    (∀ width height (f : ℕ → ℕ → α),
      Grid.Holds width height (fun x y => some (f x y)) (Grid.ofFn width height f) ∧
        (Grid.ofFn? width height f = some (Grid.ofFn width height f) ↔
          width * height < sizeLimit)) ∧
    (∀ width height (cells : Array α), cells.size = width * height →
      ∃ grid, Grid.ofCells? width height cells = some grid ∧
        Grid.Holds width height (fun x y => cells[x * height + y]?) grid) ∧
    (∀ (rows : List (List β)) length, rows ≠ [] → length ≠ 0 →
      (∀ row ∈ rows, row.length = length) → ∃ m, ofRows rows = .ok m ∧ IsTable rows length m) ∧
    ∀ (m : DenseMatrix β) row column value, 1 ≤ row ∧ row ≤ m.rows →
      1 ≤ column ∧ column ≤ m.columns →
        ∃ next, m.set? row column value = some next ∧ DiffersAt m row column value next := by
  refine ⟨fun width height f => ⟨Grid.holds_ofFn width height f, Grid.ofFn?_eq_some_iff⟩,
    fun width height cells hsize => ?_,
    fun rows length hrows hlength h => ?_, fun m row column value hrow hcolumn => ?_⟩
  · obtain ⟨grid, hgrid⟩ : ∃ grid, Grid.ofCells? width height cells = some grid :=
      ⟨_, dif_pos hsize⟩
    exact ⟨grid, hgrid, Grid.holds_of_ofCells? hgrid⟩
  · obtain ⟨m, hm, hdimension, hget⟩ := exists_ofRows hrows hlength h
    exact ⟨m, hm, isTable_of_get? h hdimension hget⟩
  · obtain ⟨next, hset, hdimension, hget⟩ := exists_set? hrow hcolumn value
    exact ⟨next, hset, differsAt_of_get? hget hdimension hrow hcolumn⟩

end ExactAlgebra.DenseMatrix
