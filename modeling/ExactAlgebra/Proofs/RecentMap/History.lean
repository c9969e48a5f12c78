import ExactAlgebra.RecentMap

/-!
What a map of recent entries remembers of a sequence of commands. The insertions since the last
clearing, newest first, tell everything: the map keeps the first keys of that history, as many
distinct ones as fit, each with the value that it was last inserted with.
-/

namespace ExactAlgebra.RecentMap

variable {κ ν : Type} [DecidableEq κ]

/-- What can be asked of a map. -/
inductive Command (κ ν : Type) where
  | insert (key : κ) (value : ν)
  | get (key : κ)
  | contains (key : κ)
  | clear

/-- What a command answers. -/
inductive Answer (ν : Type) where
  | value (found : Option ν)
  | present (found : Bool)
  | done

/-- The answer of a map to a command, and the map afterwards. -/
def Command.perform : Command κ ν → RecentMap κ ν → Answer ν × RecentMap κ ν
  | .insert key value, map => (.value (map.exchange key value).1, (map.exchange key value).2)
  | .get key, map => (.value (map.get? key), map)
  | .contains key, map => (.present (map.contains key), map)
  | .clear, map => (.done, map.clear)

/-- The map after a sequence of commands to one without entries. -/
def afterCommands (capacity : Nat) (commands : List (Command κ ν)) : RecentMap κ ν :=
  commands.foldl (fun map command => (command.perform map).2) (empty capacity)

/-- The history after one more command. -/
def Command.record : Command κ ν → List (κ × ν) → List (κ × ν)
  | .insert key value, history => (key, value) :: history
  | .get _, history => history
  | .contains _, history => history
  | .clear, _ => []

/-- The insertions since the last clearing, newest first. -/
def historyOf (commands : List (Command κ ν)) : List (κ × ν) :=
  commands.foldl (fun history command => command.record history) []

/-- The first distinct keys of a history, as many as fit. -/
def newestKeys (capacity : Nat) (history : List (κ × ν)) : List κ :=
  (history.map Prod.fst).eraseDups.take capacity

/-- The value that a key was last inserted with. -/
def latest? (history : List (κ × ν)) (key : κ) : Option ν :=
  (history.find? (fun entry => decide (entry.1 = key))).map Prod.snd

/-- The first distinct keys of a history with their latest values. -/
def newestEntries (capacity : Nat) (history : List (κ × ν)) : List (κ × ν) :=
  (newestKeys capacity history).filterMap fun key => (latest? history key).map (key, ·)

/-- The latest value of a key that is among the first distinct ones. -/
def remembered? (capacity : Nat) (history : List (κ × ν)) (key : κ) : Option ν :=
  if key ∈ newestKeys capacity history then latest? history key else none

/-- The answer that the history gives to a command. -/
def Command.answerFrom (capacity : Nat) (history : List (κ × ν)) : Command κ ν → Answer ν
  | .insert key _ => .value (remembered? capacity history key)
  | .get key => .value (remembered? capacity history key)
  | .contains key => .present (decide (key ∈ newestKeys capacity history))
  | .clear => .done

/-- The entries of a history without the older ones of the same key. -/
def firstOfEach : List (κ × ν) → List (κ × ν)
  | [] => []
  | entry :: older => entry :: without entry.1 (firstOfEach older)

theorem eraseDups_filter (keep : κ → Bool) (keys : List κ) :
    (keys.filter keep).eraseDups = keys.eraseDups.filter keep := by
  induction hn : keys.length using Nat.strongRecOn generalizing keys with
  | ind n ih =>
      cases keys with
      | nil => rfl
      | cons key rest =>
          have hless : (rest.filter fun other => !other == key).length < n := by
            have hle := List.length_filter_le (fun other => !other == key) rest
            rw [List.length_cons] at hn
            omega
          rw [List.eraseDups_cons]
          by_cases hkeep : keep key = true
          · rw [List.filter_cons_of_pos hkeep, List.filter_cons_of_pos hkeep, List.eraseDups_cons,
              ← ih _ hless _ rfl, List.filter_filter, List.filter_filter]
            simp only [Bool.and_comm]
          · have hsame : (rest.filter fun other => !other == key).filter keep =
                rest.filter keep := by
              rw [List.filter_filter]
              apply List.filter_congr
              intro other _
              by_cases heq : other = key
              · simp [heq, hkeep]
              · simp [heq]
            rw [List.filter_cons_of_neg hkeep, List.filter_cons_of_neg hkeep,
              ← ih _ hless _ rfl, hsame]

theorem keys_without (key : κ) (entries : List (κ × ν)) :
    (without key entries).map Prod.fst =
      (entries.map Prod.fst).filter fun other => !other == key := by
  rw [without, List.filter_map]
  congr 1
  apply List.filter_congr
  intro entry _
  by_cases heq : entry.1 = key <;> simp [heq]

theorem keys_firstOfEach (history : List (κ × ν)) :
    (firstOfEach history).map Prod.fst = (history.map Prod.fst).eraseDups := by
  induction history with
  | nil => rfl
  | cons entry older ih =>
      rw [firstOfEach, List.map_cons, List.map_cons, List.eraseDups_cons, eraseDups_filter,
        keys_without, ih]

theorem nodup_keys_firstOfEach (history : List (κ × ν)) :
    ((firstOfEach history).map Prod.fst).Nodup := by
  induction history with
  | nil => exact .nil
  | cons entry older ih => exact nodup_cons_without ih entry.1 entry.2

/-- An entry that is kept has the latest value of its key. -/
theorem latest?_of_mem_firstOfEach {history : List (κ × ν)} {entry : κ × ν}
    (h : entry ∈ firstOfEach history) : latest? history entry.1 = some entry.2 := by
  induction history with
  | nil => cases h
  | cons newest older ih =>
      rcases List.mem_cons.1 h with rfl | hwithout
      · simp [latest?]
      · obtain ⟨hmem, hne⟩ := List.mem_filter.1 hwithout
        have hother : newest.1 ≠ entry.1 := Ne.symm (of_decide_eq_true hne)
        rw [← ih hmem, latest?, List.find?_cons_of_neg (by simp [hother])]
        rfl

theorem newestKeys_eq (capacity : Nat) (history : List (κ × ν)) :
    newestKeys capacity history = ((firstOfEach history).take capacity).map Prod.fst := by
  rw [newestKeys, List.map_take, keys_firstOfEach]

theorem newestEntries_eq (capacity : Nat) (history : List (κ × ν)) :
    newestEntries capacity history = (firstOfEach history).take capacity := by
  have hvalue : ∀ entry ∈ (firstOfEach history).take capacity,
      (latest? history entry.1).map (entry.1, ·) = some entry := by
    intro entry hentry
    rw [latest?_of_mem_firstOfEach (List.mem_of_mem_take hentry)]
    rfl
  rw [newestEntries, newestKeys_eq, List.filterMap_map]
  generalize (firstOfEach history).take capacity = entries at hvalue
  induction entries with
  | nil => rfl
  | cons entry rest ih =>
      have hrest := ih fun other hother => hvalue other (List.mem_cons_of_mem entry hother)
      rw [List.filterMap_cons_some, hrest]
      exact hvalue entry List.mem_cons_self

/-- Among distinct keys one is left out at most, so a place that becomes free beyond the capacity
makes no difference to the first ones. -/
theorem take_without_take {entries : List (κ × ν)} (h : (entries.map Prod.fst).Nodup) (key : κ)
    (n : Nat) :
    (without key (entries.take (n + 1))).take n = (without key entries).take n := by
  induction entries generalizing n with
  | nil => rfl
  | cons entry rest ih =>
      rw [List.map_cons, List.nodup_cons] at h
      rw [List.take_succ_cons]
      by_cases heq : entry.1 = key
      · have hrest : key ∉ rest.map Prod.fst := heq ▸ h.1
        have htake : key ∉ (rest.take n).map Prod.fst := by
          rw [List.map_take]
          exact fun hmem => hrest (List.mem_of_mem_take hmem)
        have hfirst : ∀ others : List (κ × ν), without key (entry :: others) =
            without key others := fun others => List.filter_cons_of_neg (by simp [heq])
        rw [hfirst, hfirst, without_of_not_mem_keys hrest, without_of_not_mem_keys htake,
          List.take_take, Nat.min_self]
      · have hfirst : ∀ others : List (κ × ν), without key (entry :: others) =
            entry :: without key others := fun others => List.filter_cons_of_pos (by simp [heq])
        cases n with
        | zero => rfl
        | succ n => rw [hfirst, hfirst, List.take_succ_cons, List.take_succ_cons, ih h.2]

/-- Inserting into what fits of a history is fitting the longer history. -/
theorem take_cons_without_take {entries : List (κ × ν)} (h : (entries.map Prod.fst).Nodup)
    (key : κ) (value : ν) (capacity : Nat) :
    ((key, value) :: without key (entries.take capacity)).take capacity =
      ((key, value) :: without key entries).take capacity := by
  cases capacity with
  | zero => rfl
  | succ n => rw [List.take_succ_cons, List.take_succ_cons, take_without_take h]

/-- The map remembers a history: it holds the first entries of distinct keys that fit. -/
structure Remembers (capacity : Nat) (map : RecentMap κ ν) (history : List (κ × ν)) : Prop where
  capacity_eq : map.capacity = capacity
  entries_eq : map.entries = (firstOfEach history).take capacity

theorem remembers_empty (capacity : Nat) :
    Remembers capacity (empty capacity : RecentMap κ ν) [] := by
  refine ⟨rfl, ?_⟩
  rw [firstOfEach, List.take_nil]
  rfl

/-- One command changes the map as it changes the history. -/
theorem Remembers.perform {capacity : Nat} {map : RecentMap κ ν} {history : List (κ × ν)}
    (h : Remembers capacity map history) (command : Command κ ν) :
    Remembers capacity (command.perform map).2 (command.record history) := by
  cases command with
  | insert key value =>
      rw [Command.perform, exchange_eq]
      refine ⟨h.capacity_eq, ?_⟩
      change ((key, value) :: without key map.entries).take map.capacity = _
      rw [h.entries_eq, h.capacity_eq, take_cons_without_take (nodup_keys_firstOfEach history)]
      rfl
  | get key => exact h
  | contains key => exact h
  | clear =>
      rw [Command.perform, clear, h.capacity_eq]
      exact remembers_empty capacity

theorem remembers_afterCommands (capacity : Nat) (commands : List (Command κ ν)) :
    Remembers capacity (afterCommands capacity commands) (historyOf commands) := by
  have hrun : ∀ (map : RecentMap κ ν) (history : List (κ × ν)),
      Remembers capacity map history →
      Remembers capacity (commands.foldl (fun map command => (command.perform map).2) map)
        (commands.foldl (fun history command => command.record history) history) := by
    induction commands with
    | nil =>
        intro map history h
        exact h
    | cons command rest ih =>
        intro map history h
        exact ih _ _ (h.perform command)
  exact hrun _ _ (remembers_empty capacity)

theorem Remembers.keys_eq {capacity : Nat} {map : RecentMap κ ν} {history : List (κ × ν)}
    (h : Remembers capacity map history) : map.keys = newestKeys capacity history := by
  rw [keys, h.entries_eq, newestKeys_eq]

/-- A look-up finds the latest value of a key that is remembered. -/
theorem Remembers.get?_eq {capacity : Nat} {map : RecentMap κ ν} {history : List (κ × ν)}
    (h : Remembers capacity map history) (key : κ) :
    map.get? key = remembered? capacity history key := by
  rw [remembered?, ← h.keys_eq]
  split
  · rename_i hkey
    obtain ⟨entry, hentry, rfl⟩ := List.mem_map.1 hkey
    have hsome : (map.entries.find? fun other => decide (other.1 = entry.1)).isSome := by
      rw [List.find?_isSome]
      exact ⟨entry, hentry, decide_eq_true rfl⟩
    obtain ⟨found, hfound⟩ := Option.isSome_iff_exists.1 hsome
    have hsame : found.1 = entry.1 := by
      simpa using List.find?_some hfound
    have hmem := List.mem_of_find?_eq_some hfound
    rw [h.entries_eq] at hmem
    rw [get?, hfound, ← hsame, latest?_of_mem_firstOfEach (List.mem_of_mem_take hmem)]
    rfl
  · rename_i hkey
    rw [get?, Option.map_eq_none_iff, List.find?_eq_none]
    intro entry hentry
    rw [decide_eq_true_iff]
    rintro rfl
    exact hkey (List.mem_map_of_mem hentry)

theorem Remembers.contains_eq {capacity : Nat} {map : RecentMap κ ν} {history : List (κ × ν)}
    (h : Remembers capacity map history) (key : κ) :
    map.contains key = decide (key ∈ newestKeys capacity history) := by
  rw [← h.keys_eq, keys, contains, Bool.eq_iff_iff, List.any_eq_true, decide_eq_true_iff,
    List.mem_map]
  simp only [decide_eq_true_iff]

/-- A map answers as its history does. -/
theorem Remembers.answer_eq {capacity : Nat} {map : RecentMap κ ν} {history : List (κ × ν)}
    (h : Remembers capacity map history) (command : Command κ ν) :
    (command.perform map).1 = command.answerFrom capacity history := by
  cases command with
  | insert key value => rw [Command.perform, exchange_eq, Command.answerFrom, h.get?_eq]
  | get key => rw [Command.perform, Command.answerFrom, h.get?_eq]
  | contains key => rw [Command.perform, Command.answerFrom, h.contains_eq]
  | clear => rfl

/-- After any sequence of commands a map holds the first distinct keys of the history, as many as
fit, with their latest values, and it answers every further command from them. There is a map to
begin with exactly below the limit on capacities. -/
theorem afterCommands_eq_newestEntries (capacity : Nat) (commands : List (Command κ ν)) :
    (ofCapacity? capacity = some (afterCommands capacity ([] : List (Command κ ν))) ↔
      capacity < capacityLimit) ∧
    (afterCommands capacity commands).entries = newestEntries capacity (historyOf commands) ∧
    (afterCommands capacity commands).keys = newestKeys capacity (historyOf commands) ∧
    (afterCommands capacity commands).keys.Nodup ∧
    (afterCommands capacity commands).size ≤ capacity ∧
    (∀ command : Command κ ν, (command.perform (afterCommands capacity commands)).1 =
      command.answerFrom capacity (historyOf commands)) ∧
    (∀ key : κ, ((Command.get key).perform (afterCommands capacity commands)).2 =
        afterCommands capacity commands ∧
      ((Command.contains key).perform (afterCommands capacity commands)).2 =
        afterCommands capacity commands) ∧
    ∀ (key : κ) (value : ν),
      ((Command.insert key value).perform (afterCommands capacity commands)).1 =
        ((Command.get key).perform (afterCommands capacity commands)).1 := by
  have hremembers := remembers_afterCommands capacity commands
  refine ⟨ofCapacity?_eq_some_iff, ?_, hremembers.keys_eq,
    (afterCommands capacity commands).distinct, ?_,
    hremembers.answer_eq, fun _ => ⟨rfl, rfl⟩, ?_⟩
  · rw [newestEntries_eq, hremembers.entries_eq]
  · rw [size, hremembers.entries_eq]
    exact List.length_take_le _ _
  · intro key value
    rw [hremembers.answer_eq, hremembers.answer_eq]
    rfl

end ExactAlgebra.RecentMap
