import ExactAlgebra.Proofs.Factorization.Functions

/-!
The memory of factorizations changes no answer. As long as every entry is the prime factorization of
its key, what is found in the memory is what trial division would find, so each call answers what it
would answer without memory and leaves entries of the same kind. That carries over any sequence of
calls.
-/

namespace ExactAlgebra

/-- Every entry is the prime factorization of its key. -/
def FactorMemory.IsFaithful (memory : FactorMemory) : Prop :=
  ∀ entry ∈ memory.entries, IsPrimeFactorization entry.1 entry.2

namespace FactorMemory

variable {memory : FactorMemory} {n : ℕ} {factors : Factorization}

@[simp] theorem isFaithful_empty (capacity : ℕ) : IsFaithful (RecentMap.empty capacity) :=
  fun _ hentry => absurd hentry List.not_mem_nil

@[simp] theorem isFaithful_clear (memory : FactorMemory) : IsFaithful memory.clear :=
  isFaithful_empty memory.capacity

theorem IsFaithful.insert (hmemory : IsFaithful memory) (h : IsPrimeFactorization n factors) :
    IsFaithful (memory.insert n factors) := by
  intro entry hentry
  rcases List.mem_cons.1 (List.mem_of_mem_take hentry) with rfl | hkept
  · exact h
  · exact hmemory entry (List.mem_of_mem_filter hkept)

theorem IsFaithful.of_get? (hmemory : IsFaithful memory) (h : memory.get? n = some factors) :
    IsPrimeFactorization n factors := by
  obtain ⟨entry, hfind, rfl⟩ := Option.map_eq_some_iff.1 h
  have hkey : entry.1 = n := by simpa using List.find?_some hfind
  exact hkey ▸ hmemory entry (List.mem_of_find?_eq_some hfind)

end FactorMemory

namespace Factoring

variable {α β : Type} {cause : Error} {a : α} {b : β} {memory : FactorMemory} {n : ℕ}

section Outcomes

variable (computation : Factoring α) (next : α → Factoring β)

theorem outcome_bind (memory : FactorMemory) :
    (computation >>= next).outcome memory =
      StateT.run
        (ExceptT.bindCont next (computation.outcome memory).1 :
          StateM FactorMemory (Except Error β))
        (computation.outcome memory).2 := rfl

variable {computation}

theorem outcome_bind_ok (h : (computation.outcome memory).1 = .ok a) :
    (computation >>= next).outcome memory = (next a).outcome (computation.outcome memory).2 := by
  rw [outcome_bind, h]
  rfl

theorem outcome_bind_error (h : (computation.outcome memory).1 = .error cause) :
    (computation >>= next).outcome memory = (.error cause, (computation.outcome memory).2) := by
  rw [outcome_bind, h]
  rfl

end Outcomes

/-- An outcome has the given result and a memory like the one before. A failure leaves the memory as
it was. -/
structure Settles (memory : FactorMemory) (result : Except Error α)
    (outcome : Except Error α × FactorMemory) : Prop where
  answer : outcome.1 = result
  faithful : outcome.2.IsFaithful
  capacity : outcome.2.capacity = memory.capacity
  unchanged : ∀ cause, result = .error cause → outcome.2 = memory

/-- The computation has the same result with every faithful memory. -/
def IsTransparent (computation : Factoring α) (result : Except Error α) : Prop :=
  ∀ ⦃memory : FactorMemory⦄, memory.IsFaithful →
    Settles memory result (computation.outcome memory)

namespace IsTransparent

variable {computation : Factoring α} {next : α → Factoring β}

theorem pure (a : α) : IsTransparent (Pure.pure a) (.ok a) :=
  fun _ hmemory => ⟨rfl, hmemory, rfl, fun _ _ => rfl⟩

theorem throw (cause : Error) :
    IsTransparent (MonadExcept.throw cause) (.error cause : Except Error α) :=
  fun _ hmemory => ⟨rfl, hmemory, rfl, fun _ _ => rfl⟩

theorem liftM {result expected : Except Error α} (h : result = expected) :
    IsTransparent (MonadLiftT.monadLift result) expected :=
  fun _ hmemory => ⟨h, hmemory, rfl, fun _ _ => rfl⟩

theorem bind_ok (h : IsTransparent computation (.ok a)) (hnext : IsTransparent (next a) (.ok b)) :
    IsTransparent (computation >>= next) (.ok b) := by
  intro memory hmemory
  have hfirst := h hmemory
  have hsecond := hnext hfirst.faithful
  rw [outcome_bind_ok next hfirst.answer]
  exact ⟨hsecond.answer, hsecond.faithful, hsecond.capacity.trans hfirst.capacity, nofun⟩

theorem bind_error (h : IsTransparent computation (.error cause)) :
    IsTransparent (computation >>= next) (.error cause) := by
  intro memory hmemory
  have hfirst := h hmemory
  rw [outcome_bind_error next hfirst.answer]
  exact ⟨rfl, hfirst.faithful, hfirst.capacity, fun _ _ => hfirst.unchanged cause rfl⟩

end IsTransparent

/-- What is in the memory is answered from there, and the memory stays as it is. -/
theorem outcome_factor_of_get? {factors : Factorization} (hn : 0 < n)
    (h : memory.get? n = some factors) : (factor n).outcome memory = (.ok factors, memory) := by
  simp [outcome, factor, hn.ne', h, ExceptT.run, StateT.run]

theorem outcome_factor_of_get?_none (hn : 0 < n) (h : memory.get? n = none) :
    (factor n).outcome memory =
      (.ok (trialDivision n), memory.insert n (trialDivision n)) := by
  simp [outcome, factor, hn.ne', h, ExceptT.run, StateT.run]

/-- With a faithful memory factoring finds what trial division finds. -/
theorem factor_isTransparent (hn : 0 < n) : IsTransparent (factor n) (.ok (trialDivision n)) := by
  intro memory hmemory
  have hfactors := isPrimeFactorization_trialDivision hn
  cases hfound : memory.get? n with
  | some factors =>
      have hsame : factors = trialDivision n := (hmemory.of_get? hfound).unique hfactors
      rw [outcome_factor_of_get? hn hfound]
      exact ⟨congrArg Except.ok hsame, hmemory, rfl, nofun⟩
  | none =>
      rw [outcome_factor_of_get?_none hn hfound]
      exact ⟨rfl, hmemory.insert hfactors, rfl, nofun⟩

theorem factor_zero_isTransparent : IsTransparent (factor 0) (.error .notPositive) :=
  fun _ hmemory => ⟨rfl, hmemory, rfl, fun _ _ => rfl⟩

/-- The computation has a value, or rejects its argument as not positive, whatever a faithful memory
holds. -/
def IsSettled (computation : Factoring α) : Prop :=
  (∃ a, IsTransparent computation (.ok a)) ∨ IsTransparent computation (.error .notPositive)

namespace IsSettled

variable {computation : Factoring α}

theorem exists_isTransparent (h : IsSettled computation) :
    ∃ result, IsTransparent computation result := by
  rcases h with ⟨a, ha⟩ | hrejected
  · exact ⟨_, ha⟩
  · exact ⟨_, hrejected⟩

theorem map (h : IsSettled computation) (f : α → β) : IsSettled (f <$> computation) := by
  rw [map_eq_pure_bind]
  rcases h with ⟨a, ha⟩ | hrejected
  · exact Or.inl ⟨f a, ha.bind_ok (.pure (f a))⟩
  · exact Or.inr hrejected.bind_error

theorem factor (n : ℕ) : IsSettled (Factoring.factor n) := by
  rcases Nat.eq_zero_or_pos n with rfl | hn
  · exact Or.inr factor_zero_isTransparent
  · exact Or.inl ⟨_, factor_isTransparent hn⟩

/-- A function that has a value on every prime factorization of the number is settled. -/
theorem ofFactors {f : Factorization → Except Error α}
    (hf : ∀ factors, IsPrimeFactorization n factors → ∃ a, f factors = .ok a) :
    IsSettled (ofFactors f n) := by
  rcases Nat.eq_zero_or_pos n with rfl | hn
  · exact Or.inr factor_zero_isTransparent.bind_error
  · obtain ⟨a, ha⟩ := hf _ (isPrimeFactorization_trialDivision hn)
    exact Or.inl ⟨a, (factor_isTransparent hn).bind_ok (.liftM ha)⟩

end IsSettled

/-- The exponent of the group of units is positive, so factoring it is never rejected. -/
theorem carmichael_isTransparent (hn : 0 < n) (hword : n < Nat.pow 2 64) :
    ∃ exponent, 0 < exponent ∧ IsTransparent (carmichael n) (.ok exponent) := by
  obtain ⟨hexponent, hpos⟩ := (isPrimeFactorization_trialDivision hn).groupExponent_eq hword
  exact ⟨_, hpos, (factor_isTransparent hn).bind_ok (.liftM hexponent)⟩

theorem multiplicativeOrder_isSettled (a : ℕ) {m : ℕ} (hword : m < Nat.pow 2 64) :
    IsSettled (multiplicativeOrder a m) := by
  unfold multiplicativeOrder
  by_cases hzero : m = 0
  · rw [if_pos hzero]
    exact Or.inr (.throw _)
  · by_cases hcoprime : Nat.gcd a m ≠ 1
    · rw [if_neg hzero, if_pos hcoprime]
      exact Or.inl ⟨none, .pure _⟩
    · by_cases hone : m = 1
      · rw [if_neg hzero, if_neg hcoprime, if_pos hone]
        exact Or.inl ⟨some 1, .pure _⟩
      · -- The factorization of `m` is in the memory by now. Nothing after it is rejected, since the
        -- exponent of the group of units is positive, so no rejection leaves a trace.
        have hm : 0 < m := Nat.pos_of_ne_zero hzero
        obtain ⟨exponent, hexponent, hcarmichael⟩ := carmichael_isTransparent hm hword
        obtain ⟨order, horder⟩ := exists_stripPrimes (a := a) hm hword.le
          (isPrimeFactorization_trialDivision hexponent) exponent
        rw [if_neg hzero, if_neg hcoprime, if_neg hone]
        refine Or.inl ⟨some order, hcarmichael.bind_ok ?_⟩
        have hstrip := IsTransparent.liftM horder
        exact (factor_isTransparent hexponent).bind_ok (hstrip.bind_ok (.pure _))

theorem clearMemory_isTransparent : IsTransparent clearMemory (.ok ()) :=
  fun memory _ => ⟨rfl, FactorMemory.isFaithful_clear memory, rfl, nofun⟩

/-- What can be asked of a memory. Numbers have 64 bits. -/
inductive Call where
  | factor (n : UInt64)
  | eulerPhi (n : UInt64)
  | radical (n : UInt64)
  | divisorCount (n : UInt64)
  | divisorSum (n : UInt64)
  | isSquareFree (n : UInt64)
  | moebius (n : UInt64)
  | carmichael (n : UInt64)
  | multiplicativeOrder (a m : UInt64)
  | clearMemory

/-- What a call answers when it succeeds. -/
inductive Answer where
  | factors (factors : Factorization)
  | number (n : ℕ)
  | truth (holds : Bool)
  | sign (sign : ℤ)
  | order (order : Option ℕ)
  | done
  deriving DecidableEq

def Call.perform : Call → Factoring Answer
  | .factor n => .factors <$> Factoring.factor n.toNat
  | .eulerPhi n => .number <$> Factoring.eulerPhi n.toNat
  | .radical n => .number <$> Factoring.radical n.toNat
  | .divisorCount n => .number <$> Factoring.divisorCount n.toNat
  | .divisorSum n => .number <$> Factoring.divisorSum n.toNat
  | .isSquareFree n => .truth <$> Factoring.isSquareFree n.toNat
  | .moebius n => .sign <$> Factoring.moebius n.toNat
  | .carmichael n => .number <$> Factoring.carmichael n.toNat
  | .multiplicativeOrder a m => .order <$> Factoring.multiplicativeOrder a.toNat m.toNat
  | .clearMemory => (fun _ => .done) <$> Factoring.clearMemory

def answers : List Call → FactorMemory → List (Except Error Answer)
  | [], _ => []
  | call :: calls, memory =>
      (call.perform.outcome memory).1 :: answers calls (call.perform.outcome memory).2

def afterCalls (calls : List Call) (memory : FactorMemory) : FactorMemory :=
  calls.foldl (fun memory call => (call.perform.outcome memory).2) memory

/-- No call depends on what a faithful memory holds. -/
theorem Call.isSettled (call : Call) : IsSettled call.perform := by
  cases call with
  | factor n => exact (IsSettled.factor _).map _
  | eulerPhi n => exact (IsSettled.ofFactors fun _ h => ⟨_, h.totient_eq n.toNat_lt⟩).map _
  | radical n => exact (IsSettled.ofFactors fun _ h => ⟨_, h.radical_eq n.toNat_lt⟩).map _
  | divisorCount n =>
      exact (IsSettled.ofFactors fun _ h => ⟨_, h.divisorCount_eq n.toNat_lt⟩).map _
  | divisorSum n => exact (IsSettled.ofFactors fun _ h => ⟨_, h.divisorSum_eq n.toNat_lt⟩).map _
  | isSquareFree n => exact (IsSettled.ofFactors fun _ _ => ⟨_, rfl⟩).map _
  | moebius n => exact (IsSettled.ofFactors fun _ _ => ⟨_, rfl⟩).map _
  | carmichael n =>
      exact (IsSettled.ofFactors fun _ h => ⟨_, (h.groupExponent_eq n.toNat_lt).1⟩).map _
  | multiplicativeOrder a m => exact (multiplicativeOrder_isSettled a.toNat m.toNat_lt).map _
  | clearMemory => exact IsSettled.map (Or.inl ⟨(), clearMemory_isTransparent⟩) _

theorem isFaithful_afterCalls (hmemory : memory.IsFaithful) (calls : List Call) :
    (afterCalls calls memory).IsFaithful ∧
      (afterCalls calls memory).capacity = memory.capacity := by
  induction calls generalizing memory with
  | nil => exact ⟨hmemory, rfl⟩
  | cons call calls ih =>
      obtain ⟨result, hresult⟩ := call.isSettled.exists_isTransparent
      have hstep := hresult hmemory
      exact ⟨(ih hstep.faithful).1, (ih hstep.faithful).2.trans hstep.capacity⟩

/-- Faithful memories give the same answers. -/
theorem answers_eq_map (hmemory : memory.IsFaithful) {fresh : FactorMemory}
    (hfresh : fresh.IsFaithful) (calls : List Call) :
    answers calls memory = calls.map fun call => (call.perform.outcome fresh).1 := by
  induction calls generalizing memory with
  | nil => rfl
  | cons call calls ih =>
      obtain ⟨result, hresult⟩ := call.isSettled.exists_isTransparent
      rw [answers, List.map_cons, ih (hresult hmemory).faithful, (hresult hmemory).answer,
        (hresult hfresh).answer]

/-- A call answers with a value or rejects its argument. Other failures do not occur. -/
theorem Call.answer_eq (call : Call) (hmemory : memory.IsFaithful) :
    (∃ answer, (call.perform.outcome memory).1 = .ok answer) ∨
      (call.perform.outcome memory).1 = .error .notPositive := by
  rcases call.isSettled with ⟨answer, hanswer⟩ | hrejected
  · exact Or.inl ⟨answer, (hanswer hmemory).answer⟩
  · exact Or.inr (hrejected hmemory).answer

theorem Call.unchanged_of_error (call : Call) (hmemory : memory.IsFaithful)
    (h : (call.perform.outcome memory).1 = .error cause) :
    (call.perform.outcome memory).2 = memory := by
  obtain ⟨result, hresult⟩ := call.isSettled.exists_isTransparent
  exact (hresult hmemory).unchanged cause ((hresult hmemory).answer.symm.trans h)

theorem Call.outcome_factor_of_get? {factors : Factorization} {n : UInt64}
    (hmemory : memory.IsFaithful) (h : memory.get? n.toNat = some factors) :
    (Call.factor n).perform.outcome memory = (.ok (.factors factors), memory) := by
  have hfactor := Factoring.outcome_factor_of_get? (hmemory.of_get? h).pos h
  rw [Call.perform, map_eq_pure_bind, outcome_bind_ok _ (congrArg Prod.fst hfactor), hfactor]
  rfl

/-- The memory is transparent. Whatever was asked before, starting without entries or with entries
that are prime factorizations, each call answers as it does on a new memory of any capacity, and it
answers with a value or rejects its argument. The memory holds prime factorizations of positive
numbers, each number once, and not more of them than fit. Another call that is rejected leaves it as
it is, and so does factoring a number that is in it. -/
theorem answers_of_isFaithful (hmemory : memory.IsFaithful) (calls : List Call) (capacity : ℕ) :
    answers calls memory =
        calls.map (fun call => (call.perform.outcome (RecentMap.empty capacity)).1) ∧
      (∀ answer ∈ answers calls memory,
        (∃ value, answer = .ok value) ∨ answer = .error .notPositive) ∧
      (∀ entry ∈ (afterCalls calls memory).entries,
        0 < entry.1 ∧ IsPrimeFactorization entry.1 entry.2) ∧
      (afterCalls calls memory).keys.Nodup ∧
      (afterCalls calls memory).size ≤ memory.capacity ∧
      (∀ call : Call,
        (call.perform.outcome (afterCalls calls memory)).1 = .error .notPositive →
          (call.perform.outcome (afterCalls calls memory)).2 = afterCalls calls memory) ∧
      ∀ (n : UInt64) (factors : Factorization),
        (afterCalls calls memory).get? n.toNat = some factors →
          (Call.factor n).perform.outcome (afterCalls calls memory) =
            (.ok (.factors factors), afterCalls calls memory) := by
  obtain ⟨hfaithful, hcapacity⟩ := isFaithful_afterCalls hmemory calls
  have hanswers := answers_eq_map hmemory (FactorMemory.isFaithful_empty capacity) calls
  refine ⟨hanswers, ?values, ?entries, (afterCalls calls memory).distinct,
    hcapacity ▸ (afterCalls calls memory).length_le,
    fun call => call.unchanged_of_error hfaithful,
    fun _ _ => Call.outcome_factor_of_get? hfaithful⟩
  case values =>
    rw [hanswers]
    exact List.forall_mem_map.2 fun call _ =>
      call.answer_eq (FactorMemory.isFaithful_empty capacity)
  case entries =>
    intro entry hentry
    exact ⟨(hfaithful entry hentry).pos, hfaithful entry hentry⟩

/-- A memory with room for two factorizations, and that of twelve in it. -/
def memoryOfTwelve : FactorMemory := (RecentMap.empty 2).insert 12 [⟨2, 2⟩, ⟨3, 1⟩]

theorem isFaithful_memoryOfTwelve : memoryOfTwelve.IsFaithful :=
  (FactorMemory.isFaithful_empty 2).insert
    ⟨by decide, by simp [Nat.prime_two, Nat.prime_three], by decide, by decide⟩

/-- The order of two modulo nine needs the factorizations of nine and six, which push that of
twelve out. -/
theorem answers_of_isFaithful_eviction :
    memoryOfTwelve.IsFaithful ∧
      answers [.factor 12, .multiplicativeOrder 2 9, .eulerPhi 0, .eulerPhi 12] memoryOfTwelve =
        [.ok (.factors [⟨2, 2⟩, ⟨3, 1⟩]), .ok (.order (some 6)), .error .notPositive,
          .ok (.number 4)] := by
  have h := answers_of_isFaithful isFaithful_memoryOfTwelve
    [.factor 12, .multiplicativeOrder 2 9, .eulerPhi 0, .eulerPhi 12] 0
  refine ⟨isFaithful_memoryOfTwelve, h.1.trans ?_⟩
  decide +kernel

end Factoring

end ExactAlgebra
