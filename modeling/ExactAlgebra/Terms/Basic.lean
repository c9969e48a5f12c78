/-!
Sparse sums of terms `c * x^e` with rational coefficients, without a bound on the exponents. Terms
are kept from the leading one down, each exponent once and each coefficient nonzero, so that two
sums are equal exactly when they have the same coefficients. The zero sum keeps no term; to the
outside it shows the single stored term `0 * x^0`.
-/

namespace ExactAlgebra

/-- A coefficient times a power of the variable. -/
structure Term where
  coefficient : Rat
  exponent : Nat
  deriving DecidableEq

/-- Leading term first, each exponent once, and no zero coefficients. -/
structure Normal (list : List Term) : Prop where
  descending : list.Pairwise (fun a b => b.exponent < a.exponent)
  nonzero : ∀ t ∈ list, t.coefficient ≠ 0

/-- A sum of terms in its one normal form. -/
@[ext] structure Terms where
  list : List Term
  normal : Normal list
  deriving DecidableEq

/-- All exponents of a list of terms are below `limit`. -/
def ExponentsBelow (limit : Nat) (list : List Term) : Prop :=
  ∀ t ∈ list, t.exponent < limit

theorem normal_nil : Normal [] := ⟨.nil, by simp⟩

theorem normal_cons_iff {t : Term} {list : List Term} :
    Normal (t :: list) ↔
      t.coefficient ≠ 0 ∧ ExponentsBelow t.exponent list ∧ Normal list := by
  constructor
  · rintro ⟨hdescending, hnonzero⟩
    rw [List.pairwise_cons] at hdescending
    exact ⟨hnonzero t List.mem_cons_self, hdescending.1, hdescending.2,
      fun u hu => hnonzero u (List.mem_cons_of_mem t hu)⟩
  · rintro ⟨ht, hbelow, hrest⟩
    refine ⟨List.pairwise_cons.2 ⟨hbelow, hrest.descending⟩, ?_⟩
    intro u hu
    rcases List.mem_cons.1 hu with rfl | hu
    · exact ht
    · exact hrest.nonzero u hu

theorem Normal.filter {list : List Term} (h : Normal list) (keep : Term → Bool) :
    Normal (list.filter keep) :=
  ⟨h.descending.filter keep, fun t ht => h.nonzero t (List.mem_filter.1 ht).1⟩

@[simp] theorem exponentsBelow_nil (limit : Nat) : ExponentsBelow limit [] := by
  simp [ExponentsBelow]

@[simp] theorem exponentsBelow_cons {limit : Nat} {t : Term} {list : List Term} :
    ExponentsBelow limit (t :: list) ↔ t.exponent < limit ∧ ExponentsBelow limit list := by
  simp [ExponentsBelow]

theorem ExponentsBelow.mono {small large : Nat} {list : List Term}
    (h : ExponentsBelow small list) (hle : small ≤ large) : ExponentsBelow large list :=
  fun t ht => Nat.lt_of_lt_of_le (h t ht) hle

/-- The coefficient that a list of terms has at an exponent. -/
def coefficientAt : List Term → Nat → Rat
  | [], _ => 0
  | t :: rest, exponent =>
      if t.exponent = exponent then t.coefficient else coefficientAt rest exponent

theorem coefficientAt_eq_zero_of_below {limit : Nat} {list : List Term}
    (h : ExponentsBelow limit list) {exponent : Nat} (hle : limit ≤ exponent) :
    coefficientAt list exponent = 0 := by
  induction list with
  | nil => rfl
  | cons t rest ih =>
      rw [exponentsBelow_cons] at h
      rw [coefficientAt, if_neg (by omega), ih h.2]

theorem coefficientAt_of_mem {list : List Term} (h : Normal list) {t : Term} (ht : t ∈ list) :
    coefficientAt list t.exponent = t.coefficient := by
  induction list with
  | nil => simp at ht
  | cons u rest ih =>
      obtain ⟨_, hbelow, hrest⟩ := normal_cons_iff.1 h
      rcases List.mem_cons.1 ht with rfl | ht
      · simp [coefficientAt]
      · have hlt := hbelow t ht
        rw [coefficientAt, if_neg (by omega), ih hrest ht]

/-- Terms in normal form are determined by their coefficients. -/
theorem eq_of_coefficientAt_eq {left right : List Term} (hl : Normal left) (hr : Normal right)
    (h : ∀ exponent, coefficientAt left exponent = coefficientAt right exponent) :
    left = right := by
  induction left generalizing right with
  | nil =>
      cases right with
      | nil => rfl
      | cons u rest =>
          have hu := h u.exponent
          rw [coefficientAt_of_mem hr List.mem_cons_self] at hu
          exact absurd hu.symm (normal_cons_iff.1 hr).1
  | cons t tail ih =>
      obtain ⟨ht, htail, htailNormal⟩ := normal_cons_iff.1 hl
      cases right with
      | nil =>
          have ht' := h t.exponent
          rw [coefficientAt_of_mem hl List.mem_cons_self] at ht'
          exact absurd ht' ht
      | cons u rest =>
          obtain ⟨hu, hrest, hrestNormal⟩ := normal_cons_iff.1 hr
          have hexponent : t.exponent = u.exponent := by
            rcases Nat.lt_trichotomy t.exponent u.exponent with hlt | heq | hgt
            · have hzero := h u.exponent
              rw [coefficientAt, if_neg (by omega),
                coefficientAt_eq_zero_of_below htail (Nat.le_of_lt hlt),
                coefficientAt_of_mem hr List.mem_cons_self] at hzero
              exact absurd hzero.symm hu
            · exact heq
            · have hzero := h t.exponent
              rw [coefficientAt_of_mem hl List.mem_cons_self, coefficientAt,
                if_neg (by omega), coefficientAt_eq_zero_of_below hrest (Nat.le_of_lt hgt)] at hzero
              exact absurd hzero ht
          have hcoefficient : t.coefficient = u.coefficient := by
            have hat := h t.exponent
            simpa [coefficientAt, hexponent] using hat
          have htails : tail = rest := by
            refine ih htailNormal hrestNormal fun exponent => ?_
            have hat := h exponent
            by_cases heq : t.exponent = exponent
            · rw [coefficientAt_eq_zero_of_below htail (by omega),
                coefficientAt_eq_zero_of_below hrest (by omega)]
            · rwa [coefficientAt, if_neg heq, coefficientAt, if_neg (hexponent ▸ heq)] at hat
          obtain ⟨c, e⟩ := t
          obtain ⟨c', e'⟩ := u
          simp_all

namespace Terms

def zero : Terms := ⟨[], normal_nil⟩

instance : Zero Terms := ⟨zero⟩

instance : Inhabited Terms := ⟨zero⟩

@[simp] theorem list_zero : (0 : Terms).list = [] := rfl

/-- The sum has no terms. -/
def isZero (p : Terms) : Bool := p.list.isEmpty

theorem eq_zero_iff (p : Terms) : p = 0 ↔ p.list = [] := by
  rw [Terms.ext_iff, list_zero]

@[simp] theorem isZero_iff (p : Terms) : p.isZero = true ↔ p = 0 := by
  rw [eq_zero_iff, isZero, List.isEmpty_iff]

/-- One term, which vanishes with its coefficient. -/
def single (t : Term) : Terms :=
  if h : t.coefficient = 0 then 0
  else ⟨[t], normal_cons_iff.2 ⟨h, exponentsBelow_nil _, normal_nil⟩⟩

def constant (value : Rat) : Terms := single ⟨value, 0⟩

/-- The coefficient at an exponent, zero where there is no term. -/
def coeff (p : Terms) (exponent : Nat) : Rat :=
  coefficientAt p.list exponent

@[ext] theorem ext_coeff {p q : Terms} (h : ∀ exponent, p.coeff exponent = q.coeff exponent) :
    p = q :=
  Terms.ext (eq_of_coefficientAt_eq p.normal q.normal h)

@[simp] theorem coeff_zero (exponent : Nat) : (0 : Terms).coeff exponent = 0 := rfl

theorem coeff_single (t : Term) (exponent : Nat) :
    (single t).coeff exponent = if t.exponent = exponent then t.coefficient else 0 := by
  by_cases h : t.coefficient = 0
  · simp [single, h]
  · simp [single, h, coeff, coefficientAt]

/-- The stored terms, leading term first; the zero sum stores `0 * x^0`. -/
def stored (p : Terms) : List Term :=
  if p.list = [] then [⟨0, 0⟩] else p.list

/-- The stored terms by ascending exponent. -/
def ascending (p : Terms) : List Term :=
  p.stored.reverse

theorem stored_of_ne_zero {p : Terms} (h : p ≠ 0) : p.stored = p.list :=
  if_neg (fun hlist => h ((eq_zero_iff p).2 hlist))

theorem stored_ne_nil (p : Terms) : p.stored ≠ [] := by
  unfold stored
  split
  · simp
  · assumption

/-- The stored term of the largest exponent. -/
def leading (p : Terms) : Term :=
  p.stored.head p.stored_ne_nil

/-- The largest exponent of a stored term. -/
def degree (p : Terms) : Nat :=
  p.leading.exponent

/-- The stored terms after the leading one. -/
def tail (p : Terms) : Terms :=
  ⟨p.list.tail, by
    cases hlist : p.list with
    | nil => exact normal_nil
    | cons t rest => exact (normal_cons_iff.1 (hlist ▸ p.normal)).2.2⟩

/-- The coefficient of the stored term with this exponent, if there is one. -/
def get? (p : Terms) (exponent : Nat) : Option Rat :=
  (p.stored.find? (fun t => t.exponent == exponent)).map Term.coefficient

def size (p : Terms) : Nat :=
  p.stored.length

/-- All exponents are below `limit`. -/
def Below (limit : Nat) (p : Terms) : Prop :=
  ExponentsBelow limit p.list

theorem below_zero (limit : Nat) : (0 : Terms).Below limit := exponentsBelow_nil limit

theorem below_single {limit : Nat} {t : Term} (h : t.exponent < limit) :
    (single t).Below limit := by
  unfold single
  split
  · exact below_zero limit
  · simpa [Below] using h

theorem list_eq_leading_cons {p : Terms} (h : p ≠ 0) : p.list = p.leading :: p.tail.list := by
  have hstored := stored_of_ne_zero h
  cases hlist : p.list with
  | nil => exact absurd ((eq_zero_iff p).2 hlist) h
  | cons t rest =>
      have hleading : p.leading = t := by
        simp [leading, hstored, hlist]
      simp [hleading, tail, hlist]

theorem stored_eq_leading_cons (p : Terms) : p.stored = p.leading :: p.tail.list := by
  by_cases h : p = 0
  · subst h
    rfl
  · rw [stored_of_ne_zero h, list_eq_leading_cons h]

theorem degree_lt_of_below {limit : Nat} {p : Terms} (h : p.Below limit) (hp : p ≠ 0) :
    p.degree < limit := by
  have hall := h
  rw [Below, list_eq_leading_cons hp, exponentsBelow_cons] at hall
  exact hall.1

@[simp] theorem degree_zero : (0 : Terms).degree = 0 := rfl

/-- The terms after the leading one have smaller exponents. -/
theorem below_tail (p : Terms) : p.tail.Below p.degree := by
  by_cases h : p = 0
  · subst h
    exact exponentsBelow_nil _
  · have hnormal := p.normal
    rw [list_eq_leading_cons h] at hnormal
    exact (normal_cons_iff.1 hnormal).2.1

theorem leading_coefficient_ne_zero {p : Terms} (h : p ≠ 0) : p.leading.coefficient ≠ 0 := by
  have hnormal := p.normal
  rw [list_eq_leading_cons h] at hnormal
  exact (normal_cons_iff.1 hnormal).1

/-- All exponents are below `limit` exactly when the degree of a nonzero sum is. -/
theorem below_iff_degree {limit : Nat} {p : Terms} (hp : p ≠ 0) :
    p.Below limit ↔ p.degree < limit := by
  refine ⟨fun h => degree_lt_of_below h hp, fun h => ?_⟩
  rw [Below, list_eq_leading_cons hp, exponentsBelow_cons]
  exact ⟨h, (below_tail p).mono (Nat.le_of_lt h)⟩

/-- The least limit that all exponents are below. -/
def bound (p : Terms) : Nat :=
  if p = 0 then 0 else p.degree + 1

theorem bound_le_of_below {limit : Nat} {p : Terms} (h : p.Below limit) : p.bound ≤ limit := by
  unfold bound
  split
  · omega
  · rename_i hp
    exact degree_lt_of_below h hp

end Terms

end ExactAlgebra
