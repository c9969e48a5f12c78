/-!
A map of bounded size that keeps the entries inserted last. Entries are in order of insertion,
newest first, with each key once. Inserting moves a key to the front; what does not fit any more
is dropped from the end. An exchange is an insertion that tells the value before. Looking up changes
nothing.
-/

namespace ExactAlgebra

/-- At most `capacity` entries with distinct keys, newest first. -/
structure RecentMap (κ ν : Type) where
  capacity : Nat
  entries : List (κ × ν)
  length_le : entries.length ≤ capacity
  distinct : (entries.map Prod.fst).Nodup

/-- The capacity of maps made without one. -/
def standardCapacity : Nat := 50

/-- Capacities stay below this, so that all entries can be addressed. -/
def capacityLimit : Nat := Nat.pow 2 58

namespace RecentMap

variable {κ ν : Type}

/-- No entries. -/
def empty (capacity : Nat) : RecentMap κ ν := ⟨capacity, [], Nat.zero_le _, .nil⟩

/-- No entries, if the capacity is below the limit. -/
def ofCapacity? (capacity : Nat) : Option (RecentMap κ ν) :=
  if capacity < capacityLimit then some (empty capacity) else none

theorem ofCapacity?_eq_some_iff {capacity : Nat} :
    ofCapacity? capacity = some (empty capacity : RecentMap κ ν) ↔ capacity < capacityLimit := by
  simp [ofCapacity?]

def size (map : RecentMap κ ν) : Nat := map.entries.length

def keys (map : RecentMap κ ν) : List κ := map.entries.map Prod.fst

def values (map : RecentMap κ ν) : List ν := map.entries.map Prod.snd

def clear (map : RecentMap κ ν) : RecentMap κ ν := empty map.capacity

variable [DecidableEq κ]

def get? (map : RecentMap κ ν) (key : κ) : Option ν :=
  (map.entries.find? (fun entry => decide (entry.1 = key))).map Prod.snd

/-- The key has an entry. -/
def contains (map : RecentMap κ ν) (key : κ) : Bool :=
  map.entries.any (fun entry => decide (entry.1 = key))

/-- The entries with other keys. -/
def without (key : κ) (entries : List (κ × ν)) : List (κ × ν) :=
  entries.filter (fun entry => decide (entry.1 ≠ key))

theorem not_mem_keys_without (key : κ) (entries : List (κ × ν)) :
    key ∉ (without key entries).map Prod.fst := by
  simp [without]

/-- Nothing has to be left out where the key does not occur. -/
theorem without_of_not_mem_keys {key : κ} {entries : List (κ × ν)}
    (h : key ∉ entries.map Prod.fst) : without key entries = entries := by
  rw [without, List.filter_eq_self]
  intro entry hentry
  rw [decide_eq_true_iff]
  rintro rfl
  exact h (List.mem_map_of_mem hentry)

theorem nodup_cons_without {entries : List (κ × ν)} (h : (entries.map Prod.fst).Nodup)
    (key : κ) (value : ν) : (((key, value) :: without key entries).map Prod.fst).Nodup := by
  rw [List.map_cons, List.nodup_cons]
  exact ⟨not_mem_keys_without key entries,
    h.sublist (List.Sublist.map Prod.fst List.filter_sublist)⟩

/-- The map with a new entry in front, of which the oldest entries are dropped that do not fit. -/
def insert (map : RecentMap κ ν) (key : κ) (value : ν) : RecentMap κ ν where
  capacity := map.capacity
  entries := ((key, value) :: without key map.entries).take map.capacity
  length_le := List.length_take_le _ _
  distinct := (nodup_cons_without map.distinct key value).sublist
    (List.Sublist.map Prod.fst (List.take_sublist _ _))

/-- The value of the first entry with a key, and the entries without that entry. -/
def takeOut (key : κ) : List (κ × ν) → Option ν × List (κ × ν)
  | [] => (none, [])
  | entry :: rest =>
      if entry.1 = key then (some entry.2, rest)
      else ((takeOut key rest).1, entry :: (takeOut key rest).2)

/-- The entries that are left when the last one is dropped until they fit. -/
def dropOldest (capacity : Nat) (entries : List (κ × ν)) : List (κ × ν) :=
  if capacity < entries.length then dropOldest capacity entries.dropLast else entries
termination_by entries.length
decreasing_by
  rw [List.length_dropLast]
  omega

omit [DecidableEq κ] in
theorem dropOldest_eq_take (capacity : Nat) (entries : List (κ × ν)) :
    dropOldest capacity entries = entries.take capacity := by
  fun_induction dropOldest capacity entries with
  | case1 entries hlong ih =>
      rw [ih, List.dropLast_eq_take, List.take_take]
      congr 1
      omega
  | case2 entries hfits => exact (List.take_of_length_le (Nat.le_of_not_lt hfits)).symm

theorem takeOut_fst (key : κ) (entries : List (κ × ν)) :
    (takeOut key entries).1 =
      (entries.find? (fun entry => decide (entry.1 = key))).map Prod.snd := by
  induction entries with
  | nil => rfl
  | cons entry rest ih =>
      rw [takeOut]
      by_cases heq : entry.1 = key
      · simp [heq]
      · simp [heq, ih]

/-- One entry is taken out, and there is no other of its key. -/
theorem takeOut_snd {entries : List (κ × ν)} (h : (entries.map Prod.fst).Nodup) (key : κ) :
    (takeOut key entries).2 = without key entries := by
  induction entries with
  | nil => rfl
  | cons entry rest ih =>
      rw [List.map_cons, List.nodup_cons] at h
      rw [takeOut]
      by_cases heq : entry.1 = key
      · rw [if_pos heq, without, List.filter_cons_of_neg (by simp [heq])]
        exact (without_of_not_mem_keys (heq ▸ h.1)).symm
      · rw [if_neg heq, without, List.filter_cons_of_pos (by simp [heq]), ih h.2]
        rfl

/-- The value that a key had, and the map with a new entry for the key. The former entry of the key
is taken out, the new one goes to the front, and the last entries are dropped until the rest
fits. -/
def exchange (map : RecentMap κ ν) (key : κ) (value : ν) : Option ν × RecentMap κ ν :=
  ((takeOut key map.entries).1,
    { capacity := map.capacity
      entries := dropOldest map.capacity ((key, value) :: (takeOut key map.entries).2)
      length_le := by
        rw [dropOldest_eq_take]
        exact List.length_take_le _ _
      distinct := by
        rw [dropOldest_eq_take, takeOut_snd map.distinct]
        exact (nodup_cons_without map.distinct key value).sublist
          (List.Sublist.map Prod.fst (List.take_sublist _ _)) })

/-- An exchange tells the value that a look-up would have found, and leaves what an insertion
leaves. -/
theorem exchange_eq (map : RecentMap κ ν) (key : κ) (value : ν) :
    map.exchange key value = (map.get? key, map.insert key value) := by
  have hentries : dropOldest map.capacity ((key, value) :: (takeOut key map.entries).2) =
      ((key, value) :: without key map.entries).take map.capacity := by
    rw [dropOldest_eq_take, takeOut_snd map.distinct]
  rw [exchange, takeOut_fst, insert, get?]
  simp only [hentries]

end RecentMap

end ExactAlgebra
