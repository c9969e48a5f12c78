import ExactAlgebra.Proofs.DenseMatrix.Entries

/-!
A grid is a function of two coordinates. Addresses inside have different indices, so that a write
changes one cell and nothing else, and after any number of writes every cell holds the value written
to it last, or what it held to begin with.
-/

namespace ExactAlgebra.Grid

variable {α : Type}

/-- A value for an address. -/
structure Write (α : Type) where
  x : ℕ
  y : ℕ
  value : α

/-- The grid after some writes, if all of them are inside. -/
def afterWrites (grid : Grid α) (writes : List (Write α)) : Option (Grid α) :=
  writes.foldlM (fun grid write => grid.set? write.x write.y write.value) grid

/-- The value of the last write to an address. -/
def lastWritten? (writes : List (Write α)) (x y : ℕ) : Option α :=
  (writes.reverse.find? fun write => decide (write.x = x ∧ write.y = y)).map Write.value

/-- A grid that differs from another one at no more than one address. -/
structure DiffersAt (grid : Grid α) (x y : ℕ) (value : α) (next : Grid α) : Prop where
  width : next.width = grid.width
  height : next.height = grid.height
  get? : ∀ i j, next.get? i j = if i = x ∧ j = y then some value else grid.get? i j

/-- What is left of a grid of some size after writes to it, when it held the values of a function to
begin with. -/
structure IsWritten (width height : ℕ) (initial : ℕ → ℕ → Option α) (writes : List (Write α))
    (last : Grid α) : Prop where
  width_eq : last.width = width
  height_eq : last.height = height
  isSome : ∀ x y, (last.get? x y).isSome ↔ x < width ∧ y < height
  get? : ∀ x y, x < width → y < height →
    last.get? x y = (lastWritten? writes x y).or (initial x y)
  set? : ∀ x y value, x < width → y < height →
    ∃ next, last.set? x y value = some next ∧ DiffersAt last x y value next

/-- A grid of some size holds the values of a function, and what is written to it. -/
def Holds (width height : ℕ) (initial : ℕ → ℕ → Option α) (grid : Grid α) : Prop :=
  ∀ writes, (∀ write ∈ writes, write.x < width ∧ write.y < height) →
    ∃ last, grid.afterWrites writes = some last ∧ IsWritten width height initial writes last

variable {grid : Grid α} {x y i j : ℕ}

/-- The index tells the address. -/
theorem index_inj (h : grid.inside x y = true) (h' : grid.inside i j = true) :
    x * grid.height + y = i * grid.height + j ↔ i = x ∧ j = y := by
  have hy := (inside_iff.1 h).2
  have hj := (inside_iff.1 h').2
  constructor
  · intro hindex
    have hrow : j = y := by
      have hmod := congrArg (· % grid.height) hindex
      simpa only [Nat.mul_add_mod_self_right, Nat.mod_eq_of_lt hy, Nat.mod_eq_of_lt hj, eq_comm]
        using hmod
    have hcolumn : x * grid.height = i * grid.height := by omega
    exact ⟨(Nat.eq_of_mul_eq_mul_right (Nat.zero_lt_of_lt hy) hcolumn).symm, hrow⟩
  · rintro ⟨rfl, rfl⟩
    rfl

/-- A write inside changes one cell. -/
theorem exists_set? (h : grid.inside x y = true) (value : α) :
    ∃ next, grid.set? x y value = some next ∧ DiffersAt grid x y value next := by
  refine ⟨_, if_pos h, rfl, rfl, fun i j => ?_⟩
  by_cases hinside : grid.inside i j = true
  · change (if grid.inside i j = true then
      (grid.cells.setIfInBounds (x * grid.height + y) value)[i * grid.height + j]? else none) = _
    rw [if_pos hinside, Array.getElem?_setIfInBounds, if_pos (index_lt h)]
    by_cases hsame : i = x ∧ j = y
    · rw [if_pos ((index_inj h hinside).2 hsame), if_pos hsame]
    · rw [if_neg (mt (index_inj h hinside).1 hsame), if_neg hsame, get?, if_pos hinside]
  · have hother : ¬(i = x ∧ j = y) := by
      rintro ⟨rfl, rfl⟩
      exact hinside h
    rw [if_neg hother]
    exact (if_neg hinside).trans (if_neg hinside).symm

theorem lastWritten?_cons (write : Write α) (writes : List (Write α)) (x y : ℕ) :
    lastWritten? (write :: writes) x y =
      (lastWritten? writes x y).or
        (if x = write.x ∧ y = write.y then some write.value else none) := by
  rw [lastWritten?, lastWritten?, List.reverse_cons, List.find?_append, Option.map_or]
  congr 1
  rw [List.find?_singleton]
  by_cases hhere : write.x = x ∧ write.y = y
  · rw [if_pos (decide_eq_true hhere), if_pos ⟨hhere.1.symm, hhere.2.symm⟩]
    rfl
  · rw [if_neg (mt of_decide_eq_true hhere),
      if_neg fun hsame => hhere ⟨hsame.1.symm, hsame.2.symm⟩]
    rfl

/-- After writes inside, a cell holds what was written to it last, or what it held before. -/
theorem exists_afterWrites (writes : List (Write α))
    (h : ∀ write ∈ writes, write.x < grid.width ∧ write.y < grid.height) :
    ∃ last, grid.afterWrites writes = some last ∧
      last.width = grid.width ∧ last.height = grid.height ∧
      ∀ x y, last.get? x y = (lastWritten? writes x y).or (grid.get? x y) := by
  induction writes generalizing grid with
  | nil => exact ⟨grid, rfl, rfl, rfl, fun _ _ => rfl⟩
  | cons write writes ih =>
      obtain ⟨next, hset, hnext⟩ :=
        exists_set? (inside_iff.2 (h write List.mem_cons_self)) write.value
      have hrest : ∀ later ∈ writes, later.x < next.width ∧ later.y < next.height := by
        rw [hnext.width, hnext.height]
        exact fun later hlater => h later (List.mem_cons_of_mem _ hlater)
      obtain ⟨last, hlast, hwidth, hheight, hget⟩ := ih hrest
      refine ⟨last, ?_, hwidth.trans hnext.width, hheight.trans hnext.height, fun x y => ?_⟩
      · rw [afterWrites, List.foldlM_cons, hset]
        exact hlast
      · rw [hget, hnext.get?, lastWritten?_cons, Option.or_assoc]
        congr 1
        split <;> rfl

/-- A grid holds what it is seen to hold. -/
theorem holds_of_get?_eq {width height : ℕ} {initial : ℕ → ℕ → Option α}
    (hwidth : grid.width = width) (hheight : grid.height = height)
    (h : ∀ x y, x < width → y < height → grid.get? x y = initial x y) :
    Holds width height initial grid := by
  subst hwidth hheight
  intro writes hwrites
  obtain ⟨last, hlast, hwidth, hheight, hget⟩ := exists_afterWrites writes hwrites
  refine ⟨last, hlast, hwidth, hheight, fun x y => ?_, fun x y hx hy => ?_,
    fun x y value hx hy => exists_set? (inside_iff.2 ?_) value⟩
  · rw [isSome_get?_iff, hwidth, hheight]
  · rw [hget, h x y hx hy]
  · rw [hwidth, hheight]
    exact ⟨hx, hy⟩

theorem holds_ofFn (width height : ℕ) (f : ℕ → ℕ → α) :
    Holds width height (fun x y => some (f x y)) (ofFn width height f) :=
  holds_of_get?_eq rfl rfl fun x y hx hy => by rw [get?_ofFn, if_pos ⟨hx, hy⟩]

/-- Given cells stand one column after the other. -/
theorem holds_of_ofCells? {width height : ℕ} {cells : Array α}
    (h : ofCells? width height cells = some grid) :
    Holds width height (fun x y => cells[x * height + y]?) grid := by
  obtain ⟨hsize, rfl⟩ : ∃ hsize, (⟨width, height, cells, hsize⟩ : Grid α) = grid := by
    simpa [ofCells?] using h
  exact holds_of_get?_eq rfl rfl fun x y hx hy => if_pos (inside_iff.2 ⟨hx, hy⟩)

end ExactAlgebra.Grid
