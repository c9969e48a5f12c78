import ExactAlgebra.DenseMatrix.Printer
import ExactAlgebra.Proofs.DenseMatrix.Rows
import ExactAlgebra.Proofs.Rational.Numeral

/-!
Written matrices. A line is the cells of a row behind one another, each filled up to the width of
its column, so that all lines have the same length and the cells of a column end below one another.
Cells that are words can be read off the lines again. The words denote the entries exactly, so that
different matrices have different texts.
-/

namespace ExactAlgebra.DenseMatrix

/-- The words of a text: what stands between runs of blanks. -/
def words (text : List Char) : List (List Char) :=
  (text.splitOn ' ').filter fun word => !word.isEmpty

/-- The word in a place of a text ends at a position: the words before it and those behind it stand
to its left and to its right. -/
def WordEndsAt (text : List Char) (place stop : ℕ) : Prop :=
  ∃ left word right, text = left ++ word ++ right ∧ (left ++ word).length = stop ∧
    words left = (words text).take place ∧ (words text)[place]? = some word ∧
      words right = (words text).drop (place + 1)

/-- A text that can stand in a line with others, and below others. -/
structure IsWord (word : List Char) : Prop where
  ne_nil : word ≠ []
  blank_not_mem : ' ' ∉ word
  lineBreak_not_mem : '\n' ∉ word

/-- Different entries stand for different rationals, and their texts denote these. -/
structure WritesEntries {α : Type} [MatrixEntry α] (value : α → ℚ) : Prop where
  value_injective : Function.Injective value
  writes : ∀ a, Rational.WritesPlainly (value a) (MatrixEntry.text a)

/-- Lines of the same length, one for each row. Between bars they have the texts of the entries as
their words, which denote the entries, and the words in one place all end at the same position. -/
structure IsAligned {α : Type} [Zero α] [MatrixEntry α] (value : α → ℚ) (m : DenseMatrix α)
    (lines : List (List Char)) : Prop where
  length_eq : lines.length = m.rows
  width_eq : ∃ width, ∀ line ∈ lines, line.length = width
  line_eq : ∃ stops : ℕ → ℕ, ∀ i < m.rows, ∃ inside,
    lines[i]? = some ('|' :: inside ++ ['|']) ∧
      words inside = (m.row (i + 1)).map MatrixEntry.text ∧
        List.Forall₂ (fun a word => Rational.WritesPlainly (value a) word) (m.row (i + 1))
          (words inside) ∧
          ∀ j < m.columns, WordEndsAt inside j (stops j)

section Words

variable {left right word : List Char}

@[simp] theorem words_nil : words [] = [] := rfl

@[simp] theorem words_append_cons (left right : List Char) :
    words (left ++ ' ' :: right) = words left ++ words right := by
  rw [words, List.splitOn_append_cons_self, List.filter_append]
  rfl

@[simp] theorem words_cons (text : List Char) : words (' ' :: text) = words text :=
  words_append_cons [] text

@[simp] theorem words_replicate_append (count : ℕ) (text : List Char) :
    words (List.replicate count ' ' ++ text) = words text := by
  induction count with
  | zero => rfl
  | succ count ih => rw [List.replicate_succ, List.cons_append, words_cons, ih]

@[simp] theorem words_replicate (count : ℕ) : words (List.replicate count ' ') = [] := by
  rw [← List.append_nil (List.replicate count ' '), words_replicate_append, words_nil]

theorem IsWord.words_eq (h : IsWord word) : words word = [word] := by
  have hne : word.isEmpty = false := List.isEmpty_eq_false_iff.2 h.ne_nil
  rw [words, List.splitOn_eq_singleton h.blank_not_mem, List.filter_singleton, hne]
  rfl

theorem IsWord.words_leftpad (h : IsWord word) (width : ℕ) :
    words (word.leftpad width ' ') = [word] := by
  rw [List.leftpad, words_replicate_append, h.words_eq]

/-- A word ends where the words to its left and to its right are all other words. -/
theorem wordEndsAt_append
    (h : words (left ++ word ++ right) = words left ++ word :: words right) :
    WordEndsAt (left ++ word ++ right) (words left).length (left ++ word).length := by
  refine ⟨left, word, right, rfl, rfl, ?_, ?_, ?_⟩
  · rw [h, List.take_left]
  · rw [h, List.getElem?_append_right le_rfl, Nat.sub_self]
    rfl
  · rw [h, ← List.drop_drop, List.drop_left]
    rfl

theorem joined_cons (separator : Char) (first : List Char) {rest : List (List Char)}
    (h : rest ≠ []) :
    joined separator (first :: rest) = first ++ separator :: joined separator rest := by
  obtain ⟨second, later, rfl⟩ := List.exists_cons_of_ne_nil h
  rfl

theorem cons_joined (separator : Char) {lists : List (List Char)} (h : lists ≠ []) :
    separator :: joined separator lists = lists.flatMap (separator :: ·) := by
  induction lists with
  | nil => exact absurd rfl h
  | cons first rest ih =>
      by_cases hrest : rest = []
      · rw [hrest, List.flatMap_singleton]
        rfl
      · rw [joined_cons separator first hrest, ih hrest, List.flatMap_cons]
        rfl

theorem joined_eq_intercalate (separator : Char) (lists : List (List Char)) :
    joined separator lists = [separator].intercalate lists := by
  induction lists with
  | nil => rfl
  | cons first rest ih =>
      by_cases hrest : rest = []
      · rw [hrest, List.intercalate_singleton]
        rfl
      · rw [joined_cons separator first hrest, ih, List.intercalate_cons_of_ne_nil hrest,
          List.append_assoc]
        rfl

theorem le_foldl_max {numbers : List ℕ} {start n : ℕ} (h : n ≤ start ∨ n ∈ numbers) :
    n ≤ numbers.foldl max start := by
  induction numbers generalizing start with
  | nil => exact h.resolve_right List.not_mem_nil
  | cons first rest ih =>
      rw [List.mem_cons] at h
      rw [List.foldl_cons]
      apply ih
      rcases h with hstart | rfl | hrest
      · exact Or.inl (le_max_of_le_left hstart)
      · exact Or.inl (le_max_right _ _)
      · exact Or.inr hrest

end Words

section Lines

variable {cells : DenseMatrix (List Char)} {row column : ℕ} {columns : List ℕ}

/-- Cells of a row behind one another, each with a blank in front and filled up to its width. -/
def spacedCells (cells : DenseMatrix (List Char)) (row : ℕ) (columns : List ℕ) : List Char :=
  columns.flatMap fun column =>
    ' ' :: (cells.cell row column).leftpad (cells.columnWidth column) ' '

/-- The length of cells of some columns behind one another. -/
def spacedWidth (cells : DenseMatrix (List Char)) (columns : List ℕ) : ℕ :=
  (columns.map fun column => cells.columnWidth column + 1).sum

theorem spacedCells_append (front back : List ℕ) :
    cells.spacedCells row (front ++ back) =
      cells.spacedCells row front ++ cells.spacedCells row back :=
  List.flatMap_append

theorem words_spacedCells (h : ∀ column ∈ columns, IsWord (cells.cell row column)) :
    words (cells.spacedCells row columns) = columns.map (cells.cell row) := by
  -- The induction takes the last cell away, before which the blank of its own stands.
  induction columns using List.reverseRecOn with
  | nil => rfl
  | append_singleton front column ih =>
      rw [List.forall_mem_append, List.forall_mem_singleton] at h
      have hlast : cells.spacedCells row [column] =
          ' ' :: (cells.cell row column).leftpad (cells.columnWidth column) ' ' :=
        List.append_nil _
      rw [spacedCells_append, hlast, words_append_cons, ih h.1, h.2.words_leftpad, List.map_append]
      rfl

/-- The width of a column is enough for all its cells. -/
theorem length_cell_le (hrow : 1 ≤ row ∧ row ≤ cells.rows) (column : ℕ) :
    (cells.cell row column).length ≤ cells.columnWidth column :=
  le_foldl_max (Or.inr (List.mem_map.2 ⟨row, mem_indices.2 hrow, rfl⟩))

theorem length_spacedCells (hrow : 1 ≤ row ∧ row ≤ cells.rows) (columns : List ℕ) :
    (cells.spacedCells row columns).length = cells.spacedWidth columns := by
  rw [spacedCells, spacedWidth, List.length_flatMap]
  refine congrArg List.sum (List.map_congr_left fun column _ => ?_)
  rw [List.length_cons, List.length_leftpad, Nat.max_eq_left (length_cell_le hrow column)]

/-- The line of a row has its cells between two bars. -/
theorem exists_line_eq {count : ℕ} (hcount : cells.columns = count) (hpos : 0 < count) (row : ℕ) :
    ∃ inside, cells.line row = '|' :: inside ++ ['|'] ∧
      ' ' :: inside = cells.spacedCells row (indices count) := by
  subst hcount
  refine ⟨_, rfl, ?_⟩
  rw [cons_joined, List.flatMap_map]
  · rfl
  · simp [indices, hpos.ne']

section Cell

variable {front back : List ℕ} {inside : List Char}

/-- What stands to the left of a cell is nothing but the cells before it and blanks. The first blank
of all is not between the bars. -/
theorem exists_left_eq
    (hinside : ' ' :: inside = cells.spacedCells row (front ++ column :: back)) :
    ∃ left, inside = left ++ cells.cell row column ++ cells.spacedCells row back ∧
      ' ' :: left = cells.spacedCells row front ++ ' ' ::
        List.replicate (cells.columnWidth column - (cells.cell row column).length) ' ' := by
  have hcells : cells.spacedCells row (column :: back) =
      ' ' :: List.replicate (cells.columnWidth column - (cells.cell row column).length) ' ' ++
        (cells.cell row column ++ cells.spacedCells row back) := by
    simp [spacedCells, List.leftpad]
  rw [spacedCells_append, hcells, ← List.append_assoc] at hinside
  cases hleft : cells.spacedCells row front ++ ' ' ::
      List.replicate (cells.columnWidth column - (cells.cell row column).length) ' ' with
  | nil => simp at hleft
  | cons first left =>
      rw [hleft, List.cons_append, ← List.append_assoc] at hinside
      obtain ⟨rfl, rfl⟩ := List.cons.inj hinside
      exact ⟨left, rfl, rfl⟩

/-- A cell ends where the widths of its column and of the columns before it say. -/
theorem wordEndsAt_of_cons_eq (hrow : 1 ≤ row ∧ row ≤ cells.rows)
    (h : ∀ other ∈ front ++ column :: back, IsWord (cells.cell row other))
    (hinside : ' ' :: inside = cells.spacedCells row (front ++ column :: back)) :
    WordEndsAt inside front.length (cells.spacedWidth front + cells.columnWidth column) := by
  obtain ⟨left, rfl, hleft⟩ := exists_left_eq hinside
  have hwords := words_spacedCells h
  rw [List.forall_mem_append, List.forall_mem_cons] at h
  have hwordsLeft : words left = front.map (cells.cell row) := by
    rw [← words_cons, hleft, words_append_cons, words_spacedCells h.1, words_replicate,
      List.append_nil]
  have hplace : front.length = (words left).length := by
    rw [hwordsLeft, List.length_map]
  have hlength : cells.spacedWidth front + cells.columnWidth column =
      (left ++ cells.cell row column).length := by
    have hsum := congrArg List.length hleft
    have hle := length_cell_le hrow column
    simp only [List.length_append, List.length_cons, length_spacedCells hrow,
      List.length_replicate] at hsum ⊢
    omega
  rw [hplace, hlength]
  apply wordEndsAt_append
  rw [← words_cons, hinside, hwords, hwordsLeft, words_spacedCells h.2.2, List.map_append,
    List.map_cons]

end Cell

theorem lineBreak_not_mem_line (hcolumns : 0 < cells.columns)
    (h : ∀ column ∈ indices cells.columns, IsWord (cells.cell row column)) :
    '\n' ∉ cells.line row := by
  obtain ⟨inside, hline, hinside⟩ := exists_line_eq rfl hcolumns row
  have hcells : '\n' ∉ ' ' :: inside := by
    rw [hinside, spacedCells, List.mem_flatMap]
    rintro ⟨column, hcolumn, hmem⟩
    rw [List.mem_cons, List.leftpad, List.mem_append, List.mem_replicate] at hmem
    rcases hmem with hblank | ⟨-, hblank⟩ | hword
    · cases hblank
    · cases hblank
    · exact (h column hcolumn).lineBreak_not_mem hword
  rw [hline]
  simpa using hcells

end Lines

section Alignment

variable {α : Type} [Zero α] [MatrixEntry α] {value : α → ℚ} {m a b : DenseMatrix α}
  {lines : List (List Char)}

theorem cell_map_text {row column : ℕ} (hrow : 1 ≤ row ∧ row ≤ m.rows)
    (hcolumn : 1 ≤ column ∧ column ≤ m.columns) :
    (m.map MatrixEntry.text).cell row column = MatrixEntry.text (m.entry row column) := by
  rw [cell, get?_map, get?_eq_entry hrow hcolumn]
  rfl

theorem map_cell_map_text {row : ℕ} (hrow : 1 ≤ row ∧ row ≤ m.rows) :
    (indices m.columns).map ((m.map MatrixEntry.text).cell row) =
      (m.row row).map MatrixEntry.text := by
  rw [DenseMatrix.row, List.map_map]
  exact List.map_congr_left fun column hcolumn => cell_map_text hrow (mem_indices.1 hcolumn)

omit [Zero α] in
theorem WritesEntries.isWord (h : WritesEntries value) (a : α) : IsWord (MatrixEntry.text a) :=
  ⟨(h.writes a).ne_nil, (h.writes a).not_mem rfl (by decide) (by decide),
    (h.writes a).not_mem rfl (by decide) (by decide)⟩

omit [Zero α] in
theorem WritesEntries.text_injective (h : WritesEntries value) :
    Function.Injective (MatrixEntry.text : α → List Char) := by
  intro x y htext
  have hy := h.writes y
  rw [← htext] at hy
  exact h.value_injective (Rational.eq_of_writesPlainly (h.writes x) hy)

theorem isWord_cell (h : WritesEntries value) {row : ℕ} (hrow : 1 ≤ row ∧ row ≤ m.rows) :
    ∀ column ∈ indices m.columns, IsWord ((m.map MatrixEntry.text).cell row column) := by
  intro column hcolumn
  rw [cell_map_text hrow (mem_indices.1 hcolumn)]
  exact h.isWord _

theorem splitOn_toString (h : WritesEntries value) (hrows : 0 < m.rows)
    (hcolumns : 0 < m.columns) :
    (toString m).toList.splitOn '\n' =
      (indices m.rows).map (m.map MatrixEntry.text).line := by
  have htext : (toString m).toList =
      joined '\n' ((indices m.rows).map (m.map MatrixEntry.text).line) := String.toList_ofList
  rw [htext, joined_eq_intercalate, List.splitOn_intercalate]
  · intro line hline
    obtain ⟨row, hrow, rfl⟩ := List.mem_map.1 hline
    exact lineBreak_not_mem_line hcolumns (isWord_cell h (mem_indices.1 hrow))
  · simp [indices, hrows.ne']

theorem isAligned_toString (h : WritesEntries value) (hrows : 0 < m.rows)
    (hcolumns : 0 < m.columns) : IsAligned value m ((toString m).toList.splitOn '\n') := by
  let cells := m.map MatrixEntry.text
  have hcount : cells.columns = m.columns := rfl
  rw [splitOn_toString h hrows hcolumns]
  refine ⟨by simp, ⟨cells.spacedWidth (indices m.columns) + 1, fun line hline => ?_⟩,
    fun j => cells.spacedWidth (indices j) + cells.columnWidth (j + 1), fun i hi => ?_⟩
  · obtain ⟨row, hrow, rfl⟩ := List.mem_map.1 hline
    rw [mem_indices] at hrow
    obtain ⟨inside, hline, hinside⟩ := exists_line_eq hcount hcolumns row
    have hlength : (cells.spacedCells row (indices m.columns)).length =
        cells.spacedWidth (indices m.columns) := length_spacedCells hrow _
    rw [hline, ← hlength, ← hinside]
    simp
  · have hrow : 1 ≤ i + 1 ∧ i + 1 ≤ m.rows := by omega
    obtain ⟨inside, hline, hinside⟩ := exists_line_eq hcount hcolumns (i + 1)
    have hwords : words inside = (m.row (i + 1)).map MatrixEntry.text := by
      rw [← words_cons, hinside, words_spacedCells (isWord_cell h hrow), map_cell_map_text hrow]
    refine ⟨inside, ?_, hwords, ?_, fun j hj => ?_⟩
    · rw [getElem?_map_indices, if_pos hi, hline]
    · rw [hwords, List.forall₂_map_right_iff]
      exact List.forall₂_same.2 fun a _ => h.writes a
    · obtain ⟨later, hindices⟩ := exists_indices_eq_append hj
      have hcells := isWord_cell h hrow
      rw [hindices] at hinside hcells
      have hends := wordEndsAt_of_cons_eq hrow hcells hinside
      rwa [length_indices] at hends

/-- Only one matrix with rows is written in these lines. -/
theorem eq_of_isAligned (h : WritesEntries value) (hrows : 0 < a.rows)
    (ha : IsAligned value a lines) (hb : IsAligned value b lines) : a = b := by
  have hsame : a.rows = b.rows := ha.length_eq.symm.trans hb.length_eq
  obtain ⟨_, hlines⟩ := ha.line_eq
  obtain ⟨_, hothers⟩ := hb.line_eq
  have hrow : ∀ i < a.rows, a.row (i + 1) = b.row (i + 1) := by
    intro i hi
    obtain ⟨inside, hline, hwords, -⟩ := hlines i hi
    obtain ⟨inside', hline', hwords', -⟩ := hothers i (hsame ▸ hi)
    obtain rfl : inside = inside' := by
      have hbars := Option.some.inj (hline.symm.trans hline')
      exact List.append_cancel_right (List.cons.inj hbars).2
    exact h.text_injective.list_map (hwords.symm.trans hwords')
  have hcolumns : a.columns = b.columns := by
    simpa [DenseMatrix.row] using congrArg List.length (hrow 0 hrows)
  exact eq_of_row_eq (Prod.ext hsame hcolumns) hrow

omit [Zero α] in
/-- A matrix with rows and columns that can be stored can be written. -/
theorem written?_eq_some (hrows : 0 < m.rows) (hcolumns : 0 < m.columns)
    (h : storable m.rows m.columns) : m.written? = some (toString m) := by
  have hsize : m.columns * m.rows < sizeLimit := of_decide_eq_true h
  have hlistable : m.listable = true := by
    rw [listable, Bool.and_eq_true, decide_eq_true_eq, decide_eq_true_eq]
    exact ⟨(Nat.le_mul_of_pos_left _ hcolumns).trans_lt hsize,
      (Nat.le_mul_of_pos_right _ hrows).trans_lt hsize⟩
  exact if_pos hlistable

end Alignment

/-- Matrices with rows and columns are written, if they can be stored, in aligned lines that have
the texts of the entries as their words, and each is told from the others by its text. -/
def IsReadable {α : Type} [Zero α] [MatrixEntry α] (value : α → ℚ) : Prop :=
  (∀ m : DenseMatrix α, 0 < m.rows → 0 < m.columns →
    (storable m.rows m.columns → m.written? = some (toString m)) ∧
      IsAligned value m ((toString m).toList.splitOn '\n')) ∧
  ∀ a b : DenseMatrix α, 0 < a.rows → 0 < a.columns → 0 < b.rows → 0 < b.columns →
    toString a = toString b → a = b

theorem WritesEntries.isReadable {α : Type} [Zero α] [MatrixEntry α] {value : α → ℚ}
    (h : WritesEntries value) : IsReadable value := by
  refine ⟨fun m hrows hcolumns => ?_, fun a b ha ha' hb hb' htext => ?_⟩
  · exact ⟨written?_eq_some hrows hcolumns, isAligned_toString h hrows hcolumns⟩
  · have hlines := isAligned_toString h hb hb'
    rw [← htext] at hlines
    exact eq_of_isAligned h ha (isAligned_toString h ha ha') hlines

theorem writesEntries_rational : WritesEntries (id : ℚ → ℚ) :=
  ⟨Function.injective_id, Rational.writesPlainly_fractionText⟩

theorem writesEntries_integer : WritesEntries (Int.cast : ℤ → ℚ) :=
  ⟨Int.cast_injective, Rational.writesPlainly_intText⟩

/-- Matrices of rationals and of integers are written in aligned lines of words that denote their
entries, and lose nothing. -/
theorem isReadable_rational_and_integer :
    IsReadable (id : ℚ → ℚ) ∧ IsReadable (Int.cast : ℤ → ℚ) :=
  ⟨writesEntries_rational.isReadable, writesEntries_integer.isReadable⟩

example : (ofRows [[1, -20], [300, 4]] : Except Error (DenseMatrix ℤ)).map toString =
    .ok "|  1 -20|\n|300   4|" := by decide +kernel

end ExactAlgebra.DenseMatrix
