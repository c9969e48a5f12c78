import ExactAlgebra.Terms.Basic

/-!
Changing and combining sums of terms. Each operation is described by what it does to the
coefficients, and by the exponents that it can produce.
-/

namespace ExactAlgebra

/-- Two lists of terms woven together by exponent, where equal exponents meet in one term or
cancel. -/
def combine : List Term → List Term → List Term
  | [], q => q
  | p, [] => p
  | a :: p, b :: q =>
      if b.exponent < a.exponent then a :: combine p (b :: q)
      else if a.exponent < b.exponent then b :: combine (a :: p) q
      else if a.coefficient + b.coefficient = 0 then combine p q
      else ⟨a.coefficient + b.coefficient, a.exponent⟩ :: combine p q
termination_by p q => p.length + q.length

theorem exponentsBelow_combine {limit : Nat} {p q : List Term} (hp : ExponentsBelow limit p)
    (hq : ExponentsBelow limit q) : ExponentsBelow limit (combine p q) := by
  fun_induction combine p q <;> simp_all

theorem normal_combine {p q : List Term} (hp : Normal p) (hq : Normal q) :
    Normal (combine p q) := by
  fun_induction combine p q with
  | case1 => exact hq
  | case2 => exact hp
  | case3 a p b q hlt ih =>
      obtain ⟨ha, hbelow, hrest⟩ := normal_cons_iff.1 hp
      have hq' := (normal_cons_iff.1 hq).2.1
      refine normal_cons_iff.2 ⟨ha, exponentsBelow_combine hbelow ?_, ih hrest hq⟩
      exact exponentsBelow_cons.2 ⟨hlt, hq'.mono (Nat.le_of_lt hlt)⟩
  | case4 a p b q _ hlt ih =>
      obtain ⟨hb, hbelow, hrest⟩ := normal_cons_iff.1 hq
      have hp' := (normal_cons_iff.1 hp).2.1
      refine normal_cons_iff.2 ⟨hb, exponentsBelow_combine ?_ hbelow, ih hp hrest⟩
      exact exponentsBelow_cons.2 ⟨hlt, hp'.mono (Nat.le_of_lt hlt)⟩
  | case5 a p b q _ _ _ ih => exact ih (normal_cons_iff.1 hp).2.2 (normal_cons_iff.1 hq).2.2
  | case6 a p b q _ _ hsum ih =>
      obtain ⟨_, hbelow, hrest⟩ := normal_cons_iff.1 hp
      obtain ⟨_, hbelow', hrest'⟩ := normal_cons_iff.1 hq
      have hle : b.exponent ≤ a.exponent := by omega
      exact normal_cons_iff.2
        ⟨hsum, exponentsBelow_combine hbelow (hbelow'.mono hle), ih hrest hrest'⟩

theorem coefficientAt_combine {p q : List Term} (hp : Normal p) (hq : Normal q) (exponent : Nat) :
    coefficientAt (combine p q) exponent = coefficientAt p exponent + coefficientAt q exponent := by
  fun_induction combine p q with
  | case1 => exact (Rat.zero_add _).symm
  | case2 => exact (Rat.add_zero _).symm
  | case3 a p b q hlt ih =>
      have hbelow := (normal_cons_iff.1 hq).2.1
      rw [coefficientAt, coefficientAt, ih (normal_cons_iff.1 hp).2.2 hq]
      split
      · rename_i heq
        have hzero : coefficientAt (b :: q) exponent = 0 :=
          coefficientAt_eq_zero_of_below
            (exponentsBelow_cons.2 ⟨hlt, hbelow.mono (Nat.le_of_lt hlt)⟩) (by omega)
        rw [hzero, Rat.add_zero]
      · rfl
  | case4 a p b q _ hlt ih =>
      have hbelow := (normal_cons_iff.1 hp).2.1
      rw [coefficientAt, ih hp (normal_cons_iff.1 hq).2.2]
      conv => rhs; rhs; rw [coefficientAt]
      split
      · rename_i heq
        have hzero : coefficientAt (a :: p) exponent = 0 :=
          coefficientAt_eq_zero_of_below
            (exponentsBelow_cons.2 ⟨hlt, hbelow.mono (Nat.le_of_lt hlt)⟩) (by omega)
        rw [hzero, Rat.zero_add]
      · rfl
  | case5 a p b q hnlt hngt hsum ih =>
      have hle : a.exponent = b.exponent := by omega
      have hp' := (normal_cons_iff.1 hp).2
      have hq' := (normal_cons_iff.1 hq).2
      rw [ih hp'.2 hq'.2, coefficientAt, coefficientAt, hle]
      split
      · rename_i heq
        rw [coefficientAt_eq_zero_of_below hp'.1 (by omega),
          coefficientAt_eq_zero_of_below hq'.1 (by omega), hsum, Rat.add_zero]
      · rfl
  | case6 a p b q hnlt hngt _ ih =>
      have hle : a.exponent = b.exponent := by omega
      rw [coefficientAt, coefficientAt, coefficientAt,
        ih (normal_cons_iff.1 hp).2.2 (normal_cons_iff.1 hq).2.2, hle]
      split <;> rfl

namespace Terms

def add (p q : Terms) : Terms := ⟨combine p.list q.list, normal_combine p.normal q.normal⟩

instance : Add Terms := ⟨add⟩

@[simp] theorem coeff_add (p q : Terms) (exponent : Nat) :
    (p + q).coeff exponent = p.coeff exponent + q.coeff exponent :=
  coefficientAt_combine p.normal q.normal exponent

theorem below_add {limit : Nat} {p q : Terms} (hp : p.Below limit) (hq : q.Below limit) :
    (p + q).Below limit :=
  exponentsBelow_combine hp hq

/-- One more term, added to what is there at its exponent. -/
def accumulate (p : Terms) (t : Term) : Terms := p + single t

/-- The sum of a list of terms, in which exponents may repeat. -/
def ofList (list : List Term) : Terms := list.foldl accumulate 0

/-- The sum without its term at an exponent. -/
def erase (p : Terms) (exponent : Nat) : Terms :=
  ⟨p.list.filter (fun t => t.exponent != exponent), Normal.filter p.normal _⟩

/-- The sum with a given term in the place of what is there at its exponent. -/
def replace (p : Terms) (t : Term) : Terms := p.erase t.exponent + single t

theorem coefficientAt_filter_exponent (list : List Term) (erased exponent : Nat) :
    coefficientAt (list.filter (fun t => t.exponent != erased)) exponent =
      if exponent = erased then 0 else coefficientAt list exponent := by
  induction list with
  | nil => simp [coefficientAt]
  | cons t rest ih =>
      by_cases h : t.exponent = erased <;> by_cases h' : exponent = erased <;>
        grind [coefficientAt]

theorem below_erase {limit : Nat} {p : Terms} (h : p.Below limit) (exponent : Nat) :
    (p.erase exponent).Below limit :=
  fun t ht => h t (List.mem_filter.1 ht).1

theorem below_accumulate {limit : Nat} {p : Terms} {t : Term} (h : p.Below limit)
    (ht : t.exponent < limit) : (p.accumulate t).Below limit :=
  below_add h (below_single ht)

theorem below_replace {limit : Nat} {p : Terms} {t : Term} (h : p.Below limit)
    (ht : t.exponent < limit) : (p.replace t).Below limit :=
  below_add (below_erase h t.exponent) (below_single ht)

theorem below_ofList {limit : Nat} {list : List Term} (h : ∀ t ∈ list, t.exponent < limit) :
    (ofList list).Below limit := by
  have hfold : ∀ (rest : List Term) (p : Terms), (∀ t ∈ rest, t.exponent < limit) →
      p.Below limit → (rest.foldl accumulate p).Below limit := by
    intro rest
    induction rest with
    | nil => exact fun p _ hp => hp
    | cons t rest ih =>
        intro p hrest hp
        exact ih _ (fun u hu => hrest u (List.mem_cons_of_mem t hu))
          (below_accumulate hp (hrest t List.mem_cons_self))
  exact hfold list 0 h (below_zero limit)

/-- A list of terms with every coefficient passed through a function, without the terms that
vanish. -/
def mapList (f : Rat → Rat) : List Term → List Term
  | [] => []
  | t :: rest =>
      if f t.coefficient = 0 then mapList f rest
      else ⟨f t.coefficient, t.exponent⟩ :: mapList f rest

theorem exponentsBelow_mapList {limit : Nat} {list : List Term} (h : ExponentsBelow limit list)
    (f : Rat → Rat) : ExponentsBelow limit (mapList f list) := by
  induction list with
  | nil => exact h
  | cons t rest ih =>
      rw [exponentsBelow_cons] at h
      rw [mapList]
      split
      · exact ih h.2
      · exact exponentsBelow_cons.2 ⟨h.1, ih h.2⟩

theorem descending_stored (p : Terms) :
    p.stored.Pairwise (fun a b => b.exponent < a.exponent) := by
  unfold stored
  split
  · simp
  · exact p.normal.descending

theorem normal_mapList {list : List Term}
    (h : list.Pairwise (fun a b => b.exponent < a.exponent)) (f : Rat → Rat) :
    Normal (mapList f list) := by
  induction list with
  | nil => exact normal_nil
  | cons t rest ih =>
      rw [List.pairwise_cons] at h
      rw [mapList]
      split
      · exact ih h.2
      · rename_i hf
        exact normal_cons_iff.2 ⟨hf, exponentsBelow_mapList h.1 f, ih h.2⟩

/-- Every stored coefficient passed through a function. The zero sum passes its stored zero. -/
def mapCoefficients (f : Rat → Rat) (p : Terms) : Terms :=
  ⟨mapList f p.stored, normal_mapList p.descending_stored f⟩

theorem below_mapCoefficients {limit : Nat} {p : Terms} (h : p.Below limit) (hpos : 0 < limit)
    (f : Rat → Rat) : (p.mapCoefficients f).Below limit := by
  refine exponentsBelow_mapList ?_ f
  unfold stored
  split
  · simpa using hpos
  · exact h

theorem coefficientAt_mapList {list : List Term} (f : Rat → Rat) (hf : f 0 = 0) (exponent : Nat)
    (h : list.Pairwise (fun a b => b.exponent < a.exponent)) :
    coefficientAt (mapList f list) exponent = f (coefficientAt list exponent) := by
  induction list with
  | nil => exact hf.symm
  | cons t rest ih =>
      rw [List.pairwise_cons] at h
      rw [mapList]
      split
      · rename_i hzero
        rw [coefficientAt]
        split
        · rename_i heq
          rw [coefficientAt_eq_zero_of_below (exponentsBelow_mapList h.1 f) (Nat.le_of_eq heq),
            hzero]
        · exact ih h.2
      · rw [coefficientAt, coefficientAt]
        split
        · rfl
        · exact ih h.2

/-- A function that keeps zero acts on the coefficients one by one. -/
theorem coeff_mapCoefficients (p : Terms) {f : Rat → Rat} (hf : f 0 = 0) (exponent : Nat) :
    (p.mapCoefficients f).coeff exponent = f (p.coeff exponent) := by
  rw [coeff, mapCoefficients, coefficientAt_mapList f hf exponent p.descending_stored, coeff]
  unfold stored
  split
  · rename_i hlist
    simp [hlist, coefficientAt]
  · rfl

def neg (p : Terms) : Terms := p.mapCoefficients (fun c => -c)

instance : Neg Terms := ⟨neg⟩

instance : Sub Terms := ⟨fun p q => p + -q⟩

theorem sub_def (p q : Terms) : p - q = p + -q := rfl

@[simp] theorem coeff_neg (p : Terms) (exponent : Nat) : (-p).coeff exponent = -p.coeff exponent :=
  coeff_mapCoefficients p Rat.neg_zero exponent

@[simp] theorem coeff_sub (p q : Terms) (exponent : Nat) :
    (p - q).coeff exponent = p.coeff exponent - q.coeff exponent := by
  rw [sub_def, coeff_add, coeff_neg, Rat.sub_eq_add_neg]

theorem below_neg {limit : Nat} {p : Terms} (h : p.Below limit) : (-p).Below limit := by
  by_cases hp : p = 0
  · subst hp
    exact exponentsBelow_nil limit
  · exact below_mapCoefficients h (Nat.lt_of_le_of_lt (Nat.zero_le _) (degree_lt_of_below h hp)) _

theorem below_sub {limit : Nat} {p q : Terms} (hp : p.Below limit) (hq : q.Below limit) :
    (p - q).Below limit :=
  below_add hp (below_neg hq)

/-- A list of terms multiplied by one term with a nonzero coefficient. -/
def shiftList (t : Term) (list : List Term) : List Term :=
  list.map fun u => ⟨u.coefficient * t.coefficient, u.exponent + t.exponent⟩

theorem exponentsBelow_shiftList {limit : Nat} {list : List Term} (h : ExponentsBelow limit list)
    (t : Term) : ExponentsBelow (limit + t.exponent) (shiftList t list) := by
  intro u hu
  obtain ⟨v, hv, rfl⟩ := List.mem_map.1 hu
  exact Nat.add_lt_add_right (h v hv) t.exponent

theorem normal_shiftList {t : Term} (ht : t.coefficient ≠ 0) {list : List Term} (h : Normal list) :
    Normal (shiftList t list) := by
  constructor
  · rw [shiftList, List.pairwise_map]
    exact h.descending.imp fun hlt => Nat.add_lt_add_right hlt t.exponent
  · intro u hu
    obtain ⟨v, hv, rfl⟩ := List.mem_map.1 hu
    intro hzero
    rcases Rat.mul_eq_zero.1 hzero with hzero | hzero
    · exact h.nonzero v hv hzero
    · exact ht hzero

def mulTerm (t : Term) (p : Terms) : Terms :=
  if h : t.coefficient = 0 then 0 else ⟨shiftList t p.list, normal_shiftList h p.normal⟩

theorem below_mulTerm {limit : Nat} {p : Terms} (h : p.Below limit) (t : Term) :
    (p.mulTerm t).Below (limit + t.exponent) := by
  unfold mulTerm
  split
  · exact below_zero _
  · exact exponentsBelow_shiftList h t

theorem coefficientAt_shiftList (t : Term) (list : List Term) (exponent : Nat) :
    coefficientAt (shiftList t list) exponent =
      if t.exponent ≤ exponent then coefficientAt list (exponent - t.exponent) * t.coefficient
      else 0 := by
  induction list with
  | nil => simp [shiftList, coefficientAt]
  | cons u rest ih =>
      rw [shiftList, List.map_cons, coefficientAt, ← shiftList, ih]
      by_cases h : t.exponent ≤ exponent
      · by_cases h' : u.exponent = exponent - t.exponent
        · simp [h, h', coefficientAt]
        · have hne : u.exponent + t.exponent ≠ exponent := by omega
          simp [h, h', hne, coefficientAt]
      · have hne : u.exponent + t.exponent ≠ exponent := by omega
        simp [h, hne]

/-- Multiplying by `c * x^e` moves the coefficients up by `e` and multiplies them by `c`. -/
theorem coeff_mulTerm (t : Term) (p : Terms) (exponent : Nat) :
    (p.mulTerm t).coeff exponent =
      if t.exponent ≤ exponent then p.coeff (exponent - t.exponent) * t.coefficient else 0 := by
  unfold mulTerm
  split
  · rename_i h
    simp [h]
  · exact coefficientAt_shiftList t p.list exponent

def mul (p q : Terms) : Terms :=
  p.list.foldr (fun t product => q.mulTerm t + product) 0

instance : Mul Terms := ⟨mul⟩

/-- Limits on exponents add up in a product. -/
theorem below_mul {limit : Nat} {p q : Terms} (h : p ≠ 0 → q ≠ 0 → p.degree + q.degree < limit) :
    (p * q).Below limit := by
  by_cases hp : p = 0
  · subst hp
    exact below_zero limit
  by_cases hq : q = 0
  · subst hq
    have hfold : ∀ list : List Term,
        (list.foldr (fun t product => (0 : Terms).mulTerm t + product) 0).Below limit := by
      intro list
      induction list with
      | nil => exact below_zero limit
      | cons t rest ih =>
          refine below_add ?_ ih
          unfold mulTerm
          split
          · exact below_zero limit
          · exact exponentsBelow_nil limit
    exact hfold p.list
  · have hlimit := h hp hq
    have hqBelow : q.Below (q.degree + 1) := (below_iff_degree hq).2 (Nat.lt_succ_self _)
    have hpBelow : ExponentsBelow (p.degree + 1) p.list :=
      (below_iff_degree hp).2 (Nat.lt_succ_self _)
    have hfold : ∀ list : List Term, ExponentsBelow (p.degree + 1) list →
        (list.foldr (fun t product => q.mulTerm t + product) 0).Below limit := by
      intro list
      induction list with
      | nil => exact fun _ => below_zero limit
      | cons t rest ih =>
          intro hlist
          rw [exponentsBelow_cons] at hlist
          refine below_add ((below_mulTerm hqBelow t).mono ?_) (ih hlist.2)
          omega
    exact hfold p.list hpBelow

/-- The value of a list of terms by Horner's rule, from the value so far and the exponent that it
stands at. -/
def horner (x : Rat) : Rat → Nat → List Term → Rat
  | value, exponent, [] => value * x ^ exponent
  | value, exponent, t :: rest =>
      horner x (value * x ^ (exponent - t.exponent) + t.coefficient) t.exponent rest

/-- The value of the sum at a number. -/
def evaluate (p : Terms) (x : Rat) : Rat :=
  horner x p.leading.coefficient p.degree p.tail.list

end Terms

end ExactAlgebra
