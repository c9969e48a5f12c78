import ExactAlgebra.Proofs.Word
import Mathlib.Data.List.TakeWhile

/-!
Least common multiples of lists of 64-bit numbers. A list is gone through from the front, and the
multiple so far grows until the first zero. So the numbers before the first zero decide: if their
multiple does not fit in 64 bits, the list is refused, although the multiple of the whole list is
zero when a zero follows. Lists without zeros are refused exactly if their multiple does not fit.
-/

namespace ExactAlgebra.Integer

/-- The least common multiple of a list, which is one for the empty list. -/
def leastCommonMultiple (values : List ℕ) : ℕ := values.foldr Nat.lcm 1

/-- The multiple, if it fits in 64 bits. -/
def fitted (multiple : ℕ) : Except Error ℕ :=
  if multiple < Nat.pow 2 64 then .ok multiple else .error (.overflow .leastCommonMultiple)

/-- The numbers before the first zero. -/
def beforeZero (values : List ℕ) : List ℕ := values.takeWhile (· ≠ 0)

section Multiples

variable {values others : List ℕ}

theorem leastCommonMultiple_dvd_iff {n : ℕ} :
    leastCommonMultiple values ∣ n ↔ ∀ value ∈ values, value ∣ n := by
  induction values with
  | nil => simp [leastCommonMultiple]
  | cons value rest ih =>
      rw [List.forall_mem_cons, ← ih]
      exact Nat.lcm_dvd_iff

theorem dvd_leastCommonMultiple {value : ℕ} (h : value ∈ values) :
    value ∣ leastCommonMultiple values :=
  leastCommonMultiple_dvd_iff.1 dvd_rfl value h

theorem leastCommonMultiple_eq_zero_iff : leastCommonMultiple values = 0 ↔ 0 ∈ values := by
  induction values with
  | nil => simp [leastCommonMultiple]
  | cons value rest ih =>
      rw [List.mem_cons, ← ih, eq_comm (a := 0)]
      exact Nat.lcm_eq_zero_iff

theorem leastCommonMultiple_dvd_of_subset (h : values ⊆ others) :
    leastCommonMultiple values ∣ leastCommonMultiple others :=
  leastCommonMultiple_dvd_iff.2 fun _ hvalue => dvd_leastCommonMultiple (h hvalue)

theorem leastCommonMultiple_perm (h : values.Perm others) :
    leastCommonMultiple values = leastCommonMultiple others :=
  Nat.dvd_antisymm (leastCommonMultiple_dvd_of_subset h.subset)
    (leastCommonMultiple_dvd_of_subset h.symm.subset)

end Multiples

theorem fitted_of_lt {multiple : ℕ} (h : multiple < Nat.pow 2 64) :
    fitted multiple = .ok multiple :=
  if_pos h

theorem fitted_of_not_lt {multiple : ℕ} (h : ¬ multiple < Nat.pow 2 64) :
    fitted multiple = .error (.overflow .leastCommonMultiple) :=
  if_neg h

theorem lcmPair_eq_fitted (a b : ℕ) : lcmPair a b = fitted (Nat.lcm a b) := by
  by_cases hzero : a = 0 ∨ b = 0
  · have hlcm : Nat.lcm a b = 0 := Nat.lcm_eq_zero_iff.2 hzero
    rw [lcmPair, if_pos hzero, hlcm]
    rfl
  · have hlcm : a / Nat.gcd a b * b = Nat.lcm a b :=
      Nat.div_mul_right_comm (Nat.gcd_dvd_left a b) b
    rw [lcmPair, if_neg hzero, Word.mul, Word.fit, hlcm]
    by_cases hfits : Nat.lcm a b < Nat.pow 2 64
    · rw [if_pos hfits, fitted_of_lt hfits]
    · rw [if_neg hfits, fitted_of_not_lt hfits]

section Lists

variable {first : ℕ} {values before : List ℕ}

/-- Without zeros the multiple only grows, so it has to fit in the end. -/
theorem foldlM_lcmPair_eq_fitted (hne : first ≠ 0) (hfirst : first < Nat.pow 2 64)
    (h : 0 ∉ values) :
    values.foldlM lcmPair first = fitted (leastCommonMultiple (first :: values)) := by
  induction values generalizing first with
  | nil =>
      have hone : leastCommonMultiple [first] = first := Nat.lcm_one_right first
      rw [hone, fitted_of_lt hfirst]
      rfl
  | cons value rest ih =>
      rw [List.mem_cons, not_or] at h
      obtain ⟨hvalue, hrest⟩ := h
      have hassoc : leastCommonMultiple (Nat.lcm first value :: rest) =
          leastCommonMultiple (first :: value :: rest) := Nat.lcm_assoc first value _
      have hpair : Nat.lcm first value ≠ 0 := Nat.lcm_ne_zero hne (Ne.symm hvalue)
      rw [List.foldlM_cons, lcmPair_eq_fitted, ← hassoc]
      by_cases hfits : Nat.lcm first value < Nat.pow 2 64
      · rw [fitted_of_lt hfits]
        exact ih hpair hfits hrest
      · have hmultiple : leastCommonMultiple (Nat.lcm first value :: rest) ≠ 0 := by
          rw [Ne, leastCommonMultiple_eq_zero_iff]
          exact List.not_mem_cons_of_ne_of_not_mem hpair.symm hrest
        have hle := Nat.le_of_dvd (Nat.pos_of_ne_zero hmultiple)
          (dvd_leastCommonMultiple List.mem_cons_self)
        rw [fitted_of_not_lt hfits, fitted_of_not_lt (by omega)]
        rfl

/-- Once the multiple is zero it stays zero. -/
theorem foldlM_lcmPair_zero (rest : List ℕ) : rest.foldlM lcmPair 0 = .ok 0 := by
  induction rest with
  | nil => rfl
  | cons value rest ih =>
      have hpair : lcmPair 0 value = .ok 0 := if_pos (Or.inl rfl)
      rw [List.foldlM_cons, hpair]
      exact ih

/-- Without zeros the multiple of the list is returned if it fits. -/
theorem lcmList_of_zero_not_mem (hne : values ≠ []) (hwords : ∀ n ∈ values, n < Nat.pow 2 64)
    (h : 0 ∉ values) : lcmList values = fitted (leastCommonMultiple values) := by
  cases values with
  | nil => exact absurd rfl hne
  | cons first rest =>
      rw [List.mem_cons, not_or] at h
      obtain ⟨hfirst, hrest⟩ := h
      exact foldlM_lcmPair_eq_fitted (Ne.symm hfirst) (hwords first List.mem_cons_self) hrest

/-- A zero makes the multiple zero, if the multiple before it fits. -/
theorem lcmList_append_zero (hwords : ∀ n ∈ before, n < Nat.pow 2 64) (h : 0 ∉ before)
    (after : List ℕ) :
    lcmList (before ++ 0 :: after) =
      if leastCommonMultiple before < Nat.pow 2 64 then .ok 0
      else .error (.overflow .leastCommonMultiple) := by
  cases before with
  | nil => exact foldlM_lcmPair_zero after
  | cons first rest =>
      rw [List.mem_cons, not_or] at h
      obtain ⟨hfirst, hrest⟩ := h
      have hfold :=
        foldlM_lcmPair_eq_fitted (Ne.symm hfirst) (hwords first List.mem_cons_self) hrest
      have hlist : lcmList (first :: rest ++ 0 :: after) = (do
          let multiple ← fitted (leastCommonMultiple (first :: rest))
          let next ← lcmPair multiple 0
          after.foldlM lcmPair next) := by
        rw [← hfold]
        exact List.foldlM_append
      have hzero : lcmPair (leastCommonMultiple (first :: rest)) 0 = .ok 0 := if_pos (Or.inr rfl)
      rw [hlist]
      by_cases hfits : leastCommonMultiple (first :: rest) < Nat.pow 2 64
      · rw [fitted_of_lt hfits, if_pos hfits]
        change lcmPair _ 0 >>= after.foldlM lcmPair = _
        rw [hzero]
        exact foldlM_lcmPair_zero after
      · rw [fitted_of_not_lt hfits, if_neg hfits]
        rfl

theorem beforeZero_append_zero (h : 0 ∉ before) (after : List ℕ) :
    beforeZero (before ++ 0 :: after) = before := by
  have hpos : ∀ n ∈ before, decide (n ≠ 0) = true := by
    intro n hn
    exact decide_eq_true fun hzero => h (hzero ▸ hn)
  rw [beforeZero, List.takeWhile_append_of_pos hpos]
  exact List.append_nil before

theorem beforeZero_of_zero_not_mem (h : 0 ∉ values) : beforeZero values = values :=
  List.takeWhile_eq_self_iff.2 fun _ hn => decide_eq_true fun hzero => h (hzero ▸ hn)

/-- The multiple of the numbers before the first zero decides. -/
theorem lcmList_eq (hne : values ≠ []) (hwords : ∀ n ∈ values, n < Nat.pow 2 64) :
    lcmList values =
      if leastCommonMultiple (beforeZero values) < Nat.pow 2 64 then
        .ok (leastCommonMultiple values)
      else .error (.overflow .leastCommonMultiple) := by
  by_cases hzero : 0 ∈ values
  · have hmultiple := leastCommonMultiple_eq_zero_iff.2 hzero
    obtain ⟨before, after, rfl, hbefore⟩ := List.eq_append_cons_of_mem hzero
    have hwordsBefore : ∀ n ∈ before, n < Nat.pow 2 64 :=
      fun n hn => hwords n (List.mem_append_left _ hn)
    rw [lcmList_append_zero hwordsBefore hbefore, beforeZero_append_zero hbefore, hmultiple]
  · rw [lcmList_of_zero_not_mem hne hwords hzero, beforeZero_of_zero_not_mem hzero]
    rfl

/-- The multiple of a list is returned if it fits, exactly if no zero follows numbers with a
multiple that does not. -/
theorem lcmList_eq_fitted_iff (hne : values ≠ []) (hwords : ∀ n ∈ values, n < Nat.pow 2 64) :
    lcmList values = fitted (leastCommonMultiple values) ↔
      0 ∉ values ∨ leastCommonMultiple (beforeZero values) < Nat.pow 2 64 := by
  by_cases hzero : 0 ∈ values
  · have hmultiple := leastCommonMultiple_eq_zero_iff.2 hzero
    have hfitted : fitted 0 = .ok 0 := rfl
    rw [lcmList_eq hne hwords, hmultiple, hfitted]
    split <;> simp_all
  · exact iff_of_true (lcmList_of_zero_not_mem hne hwords hzero) (Or.inl hzero)

theorem beforeZero_subset_filter (values : List ℕ) :
    beforeZero values ⊆ values.filter (· ≠ 0) := by
  intro n hn
  have hkept : decide (n ≠ 0) = true :=
    List.mem_takeWhile_imp (p := fun value => decide (value ≠ 0)) hn
  exact List.mem_filter.2 ⟨(List.takeWhile_prefix _).subset hn, hkept⟩

/-- If all numbers but the zeros have a multiple that fits, the order does not matter. -/
theorem lcmList_of_filter_lt (hne : values ≠ []) (hwords : ∀ n ∈ values, n < Nat.pow 2 64)
    (h : leastCommonMultiple (values.filter (· ≠ 0)) < Nat.pow 2 64) :
    lcmList values = fitted (leastCommonMultiple values) := by
  have hpos : leastCommonMultiple (values.filter (· ≠ 0)) ≠ 0 := by
    rw [Ne, leastCommonMultiple_eq_zero_iff, List.mem_filter]
    exact fun hmem => absurd hmem.2 (by decide)
  have hle := Nat.le_of_dvd (Nat.pos_of_ne_zero hpos)
    (leastCommonMultiple_dvd_of_subset (beforeZero_subset_filter values))
  exact (lcmList_eq_fitted_iff hne hwords).2 (Or.inr (hle.trans_lt h))

/-- Where a zero meets numbers with a multiple that does not fit, one order is answered by zero and
another one is refused. -/
theorem exists_perm_lcmList (hwords : ∀ n ∈ values, n < Nat.pow 2 64) (hzero : 0 ∈ values)
    (h : ¬ leastCommonMultiple (values.filter (· ≠ 0)) < Nat.pow 2 64) :
    (∃ permuted, values.Perm permuted ∧ lcmList permuted = .ok 0) ∧
      ∃ permuted, values.Perm permuted ∧
        lcmList permuted = .error (.overflow .leastCommonMultiple) := by
  obtain ⟨before, after, hsplit, -⟩ := List.eq_append_cons_of_mem hzero
  refine ⟨⟨0 :: (before ++ after), hsplit ▸ List.perm_middle, foldlM_lcmPair_zero _⟩, ?_⟩
  have hsorted : (values.filter (· ≠ 0) ++ values.filter (fun n => !decide (n ≠ 0))).Perm values :=
    List.filter_append_perm _ _
  have hzeros : 0 ∈ values.filter (fun n => !decide (n ≠ 0)) :=
    List.mem_filter.2 ⟨hzero, by decide⟩
  have hnonzero : 0 ∉ values.filter (· ≠ 0) :=
    fun hmem => absurd (List.mem_filter.1 hmem).2 (by decide)
  refine ⟨_, hsorted.symm, ?_⟩
  obtain ⟨first, rest, hrest⟩ := List.exists_cons_of_ne_nil (List.ne_nil_of_mem hzeros)
  have hfirst : first = 0 := by
    have hmem : first ∈ values.filter (fun n => !decide (n ≠ 0)) := hrest ▸ List.mem_cons_self
    simpa using (List.mem_filter.1 hmem).2
  have hwordsNonzero : ∀ n ∈ values.filter (· ≠ 0), n < Nat.pow 2 64 :=
    fun n hn => hwords n (List.mem_filter.1 hn).1
  rw [hrest, hfirst, lcmList_append_zero hwordsNonzero hnonzero, if_neg h]

end Lists

/-- A list of 64-bit numbers has its least common multiple as the answer if the multiple of the
numbers before the first zero fits in 64 bits, and is refused otherwise. So the answer is the
multiple where it fits, and a refusal where it does not, unless a zero comes after numbers whose
multiple does not fit. It is the same for every order of the list unless there is a zero and the
other numbers have a multiple that does not fit. -/
theorem lcmList_answer (values : List ℕ) (hne : values ≠ [])
    (hwords : ∀ n ∈ values, n < Nat.pow 2 64) :
    (lcmList values =
      if leastCommonMultiple (beforeZero values) < Nat.pow 2 64 then
        .ok (leastCommonMultiple values)
      else .error (.overflow .leastCommonMultiple)) ∧
    (lcmList values = fitted (leastCommonMultiple values) ↔
      0 ∉ values ∨ leastCommonMultiple (beforeZero values) < Nat.pow 2 64) ∧
    ((∀ permuted, values.Perm permuted → lcmList permuted = lcmList values) ↔
      0 ∉ values ∨ leastCommonMultiple (values.filter (· ≠ 0)) < Nat.pow 2 64) := by
  refine ⟨lcmList_eq hne hwords, lcmList_eq_fitted_iff hne hwords, ⟨fun hsame => ?_, ?_⟩⟩
  · by_contra hnot
    rw [not_or, not_not] at hnot
    obtain ⟨⟨first, hfirst, hzero⟩, ⟨second, hsecond, hrefused⟩⟩ :=
      exists_perm_lcmList hwords hnot.1 hnot.2
    rw [hsame first hfirst, ← hsame second hsecond, hrefused] at hzero
    cases hzero
  · intro horder permuted hperm
    have hwordsPermuted : ∀ n ∈ permuted, n < Nat.pow 2 64 :=
      fun n hn => hwords n (hperm.symm.subset hn)
    have hnePermuted : permuted ≠ [] := fun hnil => hne (hnil ▸ hperm).eq_nil
    rcases horder with hzero | hfits
    · have hzeroPermuted : 0 ∉ permuted := fun hmem => hzero (hperm.symm.subset hmem)
      rw [lcmList_of_zero_not_mem hne hwords hzero, leastCommonMultiple_perm hperm]
      exact lcmList_of_zero_not_mem hnePermuted hwordsPermuted hzeroPermuted
    · have hfitsPermuted := leastCommonMultiple_perm (hperm.filter (· ≠ 0)) ▸ hfits
      rw [lcmList_of_filter_lt hne hwords hfits, leastCommonMultiple_perm hperm]
      exact lcmList_of_filter_lt hnePermuted hwordsPermuted hfitsPermuted

/-- The largest word, one of its divisors, a zero, and a word that has few factors in common with
those before. -/
def zeroInTime : List ℕ := [18446744073709551615, 3, 0, 18446744073709551614]

theorem lcmList_answer_zeroInTime :
    zeroInTime ≠ [] ∧ (∀ n ∈ zeroInTime, n < Nat.pow 2 64) ∧
      lcmList zeroInTime = fitted (leastCommonMultiple zeroInTime) ∧
      ¬ ∀ permuted, zeroInTime.Perm permuted → lcmList permuted = lcmList zeroInTime := by
  have hne : zeroInTime ≠ [] := by decide
  have hwords : ∀ n ∈ zeroInTime, n < Nat.pow 2 64 := by decide
  obtain ⟨-, hanswer, horder⟩ := lcmList_answer zeroInTime hne hwords
  refine ⟨hne, hwords, hanswer.2 (Or.inr (by decide +kernel)), ?_⟩
  rw [horder]
  decide +kernel

/-- The two largest words have no multiple in 64 bits but zero. When the zero comes last, the list
is refused; when it comes first, zero is the answer. -/
theorem lcmList_zero_too_late :
    leastCommonMultiple [18446744073709551615, 18446744073709551614, 0] = 0 ∧
      lcmList [18446744073709551615, 18446744073709551614, 0] =
        .error (.overflow .leastCommonMultiple) ∧
      lcmList [0, 18446744073709551615, 18446744073709551614] = .ok 0 := by
  decide +kernel

end ExactAlgebra.Integer
