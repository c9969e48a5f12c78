/-!
Results of computations that can fail. What succeeded in the end succeeded on the way, what failed
failed at one step, and a computation over a list succeeds when it does for every member.
-/

namespace ExactAlgebra

variable {ε α β : Type}

theorem bind_congr_ok {x : Except ε α} {f g : α → Except ε β} (h : ∀ a, x = .ok a → f a = g a) :
    x >>= f = x >>= g := by
  cases x with
  | error cause => rfl
  | ok a => exact h a rfl

theorem eq_ok_of_bind {x : Except ε α} {f : α → Except ε β} {b : β} (h : x >>= f = .ok b) :
    ∃ a, x = .ok a ∧ f a = .ok b := by
  cases x with
  | error cause => cases h
  | ok a => exact ⟨a, rfl, h⟩

theorem eq_error_of_bind {x : Except ε α} {f : α → Except ε β} {cause : ε}
    (h : x >>= f = .error cause) : x = .error cause ∨ ∃ a, x = .ok a ∧ f a = .error cause := by
  cases x with
  | error reported =>
      cases h
      exact Or.inl rfl
  | ok a => exact Or.inr ⟨a, rfl, h⟩

theorem eq_ok_of_map {x : Except ε α} {f : α → β} {b : β} (h : x.map f = .ok b) :
    ∃ a, x = .ok a ∧ f a = b := by
  cases x with
  | error cause => cases h
  | ok a => exact ⟨a, rfl, Except.ok.inj h⟩

theorem eq_error_of_map {x : Except ε α} {f : α → β} {cause : ε} (h : x.map f = .error cause) :
    x = .error cause := by
  cases x with
  | error reported =>
      cases h
      rfl
  | ok a => cases h

/-- What is checked first fails with the cause of the check only. -/
theorem ite_error_eq_error_iff {p : Prop} [Decidable p] {reported cause : ε} {a : α} :
    (if p then Except.error reported else .ok a) = .error cause ↔ p ∧ cause = reported := by
  by_cases h : p
  · simp [h, eq_comm]
  · simp [h]

/-- Two computations of which each step is the other's, passed through a function. -/
theorem bind_eq_map_bind {α' β' : Type} {x : Except ε α} {x' : Except ε α'} {next : α → Except ε β}
    {next' : α' → Except ε β'} {f : α → α'} {g : β → β'} (h : x' = x.map f)
    (hnext : ∀ a, next' (f a) = (next a).map g) : x' >>= next' = (x >>= next).map g := by
  subst h
  cases x with
  | error cause => rfl
  | ok a => exact hnext a

/-- Where every member of a list has a result, the list has the list of the results. -/
theorem mapM_eq_ok_map {f : α → Except ε β} {g : α → β} {list : List α}
    (h : ∀ a ∈ list, f a = .ok (g a)) : list.mapM f = .ok (list.map g) := by
  induction list with
  | nil => rfl
  | cons a rest ih =>
      rw [List.forall_mem_cons] at h
      rw [List.mapM_cons, h.1, ih h.2]
      rfl

/-- A fold succeeds when each of its steps does, from any state. -/
theorem exists_foldlM_eq_ok {f : β → α → Except ε β} {list : List α}
    (h : ∀ a ∈ list, ∀ state, ∃ next, f state a = .ok next) (start : β) :
    ∃ result, list.foldlM f start = .ok result := by
  induction list generalizing start with
  | nil => exact ⟨start, rfl⟩
  | cons a rest ih =>
      rw [List.forall_mem_cons] at h
      obtain ⟨next, hnext⟩ := h.1 start
      rw [List.foldlM_cons, hnext]
      exact ih h.2 next

end ExactAlgebra
