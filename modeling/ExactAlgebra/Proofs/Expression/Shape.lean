import ExactAlgebra.Expression.Machine
import ExactAlgebra.Proofs.Expression.Grammar
import ExactAlgebra.Proofs.Expression.Parentheses
import ExactAlgebra.Proofs.Results

/-!
What a token does to the machine besides the values. Whether an operand comes next, and which
parentheses are open, depends on the tokens alone; the operators that wait play no part in it.
-/

namespace ExactAlgebra.Machine

theorem run_append (symbol : Char) (machine : Machine) (left right : List PlacedToken) :
    machine.run symbol (left ++ right) = (do
      let next ← machine.run symbol left
      next.run symbol right) := by
  induction left generalizing machine with
  | nil => rfl
  | cons placed rest ih =>
      rw [List.cons_append, run, run]
      cases machine.step symbol placed with
      | error cause => rfl
      | ok next => exact ih next

/-- All operators but the negation take two operands. -/
theorem apply_binary {operator : Operator} (hnegate : operator ≠ .negate) (position : Nat)
    (left right : Operand) (values : List Operand) :
    operator.apply position (right :: left :: values) =
      (operator.value left right).map (· :: values) := by
  cases operator with
  | negate => exact absurd rfl hnegate
  | add | subtract | multiply | remainder | power => rfl

/-- What an operator that acts takes from the stack, and what it puts there. -/
theorem apply_cases {operator : Operator} {position : Nat} {values left : List Operand}
    (h : operator.apply position values = .ok left) :
    (∃ a others, operator = .negate ∧ values = a :: others ∧ left = a.neg :: others) ∨
    ∃ a b c others, operator ≠ .negate ∧ values = b :: a :: others ∧
      operator.value a b = .ok c ∧ left = c :: others := by
  by_cases hnegate : operator = .negate
  · subst hnegate
    cases values with
    | nil => cases h
    | cons a others =>
        cases h
        exact .inl ⟨a, others, rfl, rfl, rfl⟩
  · match values, h with
    | [], h =>
        cases operator <;> cases h
    | [_], h =>
        cases operator with
        | negate => exact absurd rfl hnegate
        | add | subtract | multiply | remainder | power => cases h
    | b :: a :: others, h =>
        rw [apply_binary hnegate] at h
        obtain ⟨c, hvalue, rfl⟩ := eq_ok_of_map h
        exact .inr ⟨a, b, c, others, hnegate, rfl, hvalue, rfl⟩

/-- The number of open parentheses that wait. -/
def depth (pending : List Pending) : Nat :=
  pending.countP Pending.isOpening

@[simp] theorem depth_operator_cons (operator : Operator) (position : Nat)
    (pending : List Pending) :
    depth (.operator operator position :: pending) = depth pending :=
  List.countP_cons_of_neg Bool.false_ne_true

@[simp] theorem depth_opening_cons (position : Nat) (pending : List Pending) :
    depth (.opening position :: pending) = depth pending + 1 :=
  List.countP_cons_of_pos rfl

/-- The positions of the parentheses that wait, the innermost first. -/
def openings : List Pending → List Nat
  | [] => []
  | .operator _ _ :: pending => openings pending
  | .opening position :: pending => position :: openings pending

theorem length_openings (pending : List Pending) : (openings pending).length = depth pending := by
  induction pending with
  | nil => rfl
  | cons entry pending ih => cases entry <;> simp [openings, ih]

theorem openings_eq_nil_iff {pending : List Pending} :
    openings pending = [] ↔ pending.any Pending.isOpening = false := by
  induction pending with
  | nil => simp [openings]
  | cons entry pending ih => cases entry <;> simp_all [openings, Pending.isOpening]

theorem openings_of_reduce {level : Precedence} {pending rest : List Pending}
    {values left : List Operand} (h : reduce level pending values = .ok (rest, left)) :
    openings rest = openings pending := by
  induction pending generalizing values with
  | nil =>
      cases h
      rfl
  | cons entry pending ih =>
      cases entry with
      | opening position =>
          cases h
          rfl
      | operator operator position =>
          rw [reduce] at h
          split at h
          · cases h
            rfl
          · obtain ⟨next, _, hnext⟩ := eq_ok_of_bind h
            exact ih hnext

/-- A binary operator waits behind an operand once the reduction at its level has succeeded. -/
theorem pushBinary_eq (machine : Machine) (operator : Operator) (position : Nat) :
    machine.pushBinary operator position = (do
      let state ← reduce operator.precedence machine.pending machine.values
      return ⟨state.2, .operator operator position :: state.1, true⟩) :=
  rfl

theorem shape_of_pushBinary {machine next : Machine} {operator : Operator} {position : Nat}
    (h : machine.pushBinary operator position = .ok next) :
    openings next.pending = openings machine.pending ∧ next.expectsOperand = true := by
  rw [pushBinary_eq] at h
  obtain ⟨⟨rest, values⟩, hreduce, hnext⟩ := eq_ok_of_bind h
  cases hnext
  have hopenings := openings_of_reduce hreduce
  exact ⟨hopenings, rfl⟩

theorem shape_of_infixOperator {machine next : Machine} {operator : Operator} {position : Nat}
    (h : machine.infixOperator operator position = .ok next) :
    machine.expectsOperand = false ∧ openings next.pending = openings machine.pending ∧
      next.expectsOperand = true := by
  rw [infixOperator] at h
  split at h
  · cases h
  · rename_i hexpects
    exact ⟨by simpa using hexpects, shape_of_pushBinary h⟩

theorem openings_of_closeGroup {position : Nat} {pending rest : List Pending}
    {values left : List Operand} (h : closeGroup position pending values = .ok (rest, left)) :
    ∃ opened, openings pending = opened :: openings rest := by
  induction pending generalizing values with
  | nil => cases h
  | cons entry pending ih =>
      cases entry with
      | opening opened =>
          cases h
          exact ⟨opened, rfl⟩
      | operator operator position =>
          obtain ⟨next, _, hnext⟩ := eq_ok_of_bind h
          exact ih hnext

theorem openings_of_drain {pending : List Pending} {values left : List Operand}
    (h : drain pending values = .ok left) : openings pending = [] := by
  induction pending generalizing values with
  | nil => rfl
  | cons entry pending ih =>
      cases entry with
      | opening position => cases h
      | operator operator position =>
          obtain ⟨next, _, hnext⟩ := eq_ok_of_bind h
          exact ih hnext

theorem closeGroup_of_close {machine next : Machine} {position : Nat}
    (h : machine.close position = .ok next) :
    machine.expectsOperand = false ∧
      closeGroup position machine.pending machine.values = .ok (next.pending, next.values) ∧
      next.expectsOperand = false := by
  rw [close] at h
  split at h
  · split at h
    · cases h
    · rename_i hexpects
      obtain ⟨⟨pending, values⟩, hclose, hnext⟩ := eq_ok_of_bind h
      cases hnext
      exact ⟨by simpa using hexpects, hclose, rfl⟩
  · cases h

/-- A token that can multiply what it follows leaves an operand expected before it is taken. -/
theorem shape_of_juxtapose {machine next : Machine} {placed : PlacedToken}
    (h : machine.juxtapose placed = .ok next) :
    openings next.pending = openings machine.pending ∧
      (placed.token.beginsOperand = true → next.expectsOperand = true) ∧
      (placed.token.beginsOperand = false → next = machine) := by
  rw [juxtapose] at h
  split at h
  · rename_i hboth
    obtain ⟨hopenings, hexpects⟩ := shape_of_pushBinary h
    simp only [Bool.and_eq_true] at hboth
    exact ⟨hopenings, fun _ => hexpects, fun hbegins => by simp [hbegins] at hboth⟩
  · rename_i hnot
    cases h
    refine ⟨rfl, fun hbegins => ?_, fun _ => rfl⟩
    simpa [hbegins] using hnot

theorem shape_of_take {symbol : Char} {machine next : Machine} {placed : PlacedToken}
    (h : machine.take symbol placed = .ok next) :
    next.expectsOperand = placed.token.leavesOperandExpected ∧
      openings next.pending = openAfter placed (openings machine.pending) ∧
      (placed.token = .closing → openings machine.pending ≠ []) := by
  obtain ⟨token, position⟩ := placed
  cases token with
  | number value | constant value | symbol | opening =>
      cases h
      exact ⟨rfl, rfl, nofun⟩
  | closing =>
      obtain ⟨_, hclose, hexpects⟩ := closeGroup_of_close h
      obtain ⟨opened, hopenings⟩ := openings_of_closeGroup hclose
      rw [hopenings]
      exact ⟨hexpects, rfl, fun _ => List.cons_ne_nil opened _⟩
  | plus =>
      simp only [take] at h
      split at h
      · rename_i hexpects
        cases h
        exact ⟨hexpects, rfl, nofun⟩
      · obtain ⟨hopenings, hexpects⟩ := shape_of_pushBinary h
        exact ⟨hexpects, hopenings, nofun⟩
  | minus =>
      simp only [take] at h
      split at h
      · cases h
        exact ⟨rfl, rfl, nofun⟩
      · obtain ⟨hopenings, hexpects⟩ := shape_of_pushBinary h
        exact ⟨hexpects, hopenings, nofun⟩
  | star | percent | caret =>
      obtain ⟨_, hopenings, hexpects⟩ := shape_of_infixOperator h
      exact ⟨hexpects, hopenings, nofun⟩

/-- Which parentheses are open after one token. -/
theorem openings_of_step {symbol : Char} {machine next : Machine} {placed : PlacedToken}
    (h : machine.step symbol placed = .ok next) :
    openings next.pending = openAfter placed (openings machine.pending) ∧
      (placed.token = .closing → openings machine.pending ≠ []) := by
  obtain ⟨ready, hready, htake⟩ := eq_ok_of_bind h
  obtain ⟨_, hopenings⟩ := shape_of_take htake
  rwa [(shape_of_juxtapose hready).1] at hopenings

/-- What one token does to the machine besides the values: whether an operand is expected next, and
how many parentheses are open. -/
theorem shape_of_step {symbol : Char} {machine next : Machine} {placed : PlacedToken}
    (h : machine.step symbol placed = .ok next) :
    next.expectsOperand = placed.token.leavesOperandExpected ∧
      depth next.pending + [placed.token].count .closing =
        depth machine.pending + [placed.token].count .opening := by
  obtain ⟨hopenings, hopen⟩ := openings_of_step h
  obtain ⟨ready, _, htake⟩ := eq_ok_of_bind h
  refine ⟨(shape_of_take htake).1, ?_⟩
  rw [← length_openings, ← length_openings, hopenings, length_openAfter hopen]

theorem shape_of_run {symbol : Char} {machine next : Machine} {tokens : List PlacedToken}
    (h : machine.run symbol tokens = .ok next) :
    next.expectsOperand =
        expectsAfter machine.expectsOperand (tokens.map PlacedToken.token) ∧
      depth next.pending + (tokens.map PlacedToken.token).count .closing =
        depth machine.pending + (tokens.map PlacedToken.token).count .opening := by
  induction tokens generalizing machine with
  | nil =>
      cases h
      exact ⟨rfl, rfl⟩
  | cons placed rest ih =>
      rw [run] at h
      obtain ⟨middle, hstep, hrun⟩ := eq_ok_of_bind h
      obtain ⟨hexpects, hdepth⟩ := shape_of_step hstep
      obtain ⟨hexpects', hdepth'⟩ := ih hrun
      constructor
      · rw [hexpects', hexpects, List.map_cons, expectsAfter_cons]
      · rw [List.map_cons, ← List.singleton_append, List.count_append, List.count_append]
        omega

end ExactAlgebra.Machine
