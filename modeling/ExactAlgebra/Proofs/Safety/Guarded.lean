import ExactAlgebra.Proofs.Power

/-!
Guarded computations. Besides reporting errors they stop at faults: at the places where a step has
no meaning, such as an operator without operands, and for which there is no error. A computation
without guards is safe if its guarded form agrees with it, since the results of computations without
guards are never faults.
-/

namespace ExactAlgebra

/-- Why a step has no meaning. -/
inductive Fault where
  /-- A text is cut behind its end or inside a character. -/
  | textCut
  /-- The scanner does not move on. -/
  | noProgress
  /-- A fraction has a zero denominator. -/
  | zeroDenominator
  /-- An operator finds too few operands. -/
  | operandMissing
  /-- No value is left at the end. -/
  | valueMissing
  /-- More than one value is left at the end. -/
  | valuesLeft
  /-- Exponents are added beyond the limit. -/
  | exponentRange
  /-- The degree of a product overflows where no error is reported. -/
  | degreeOverflow
  /-- A coefficient is reduced modulo zero. -/
  | zeroModulus
  /-- A polynomial is divided by zero. -/
  | zeroDivisor
  /-- An operand has moduli of its own. -/
  | moduliOnOperand
  /-- A configured modulus is refused. -/
  | modulusRefused
  deriving DecidableEq

/-- How a guarded computation ends without a result. -/
inductive Failure where
  | reported (cause : Error)
  | fault (cause : Fault)
  deriving DecidableEq

/-- Computations that report errors and stop at faults. -/
abbrev Guarded (α : Type) : Type := Except Failure α

namespace Guarded

variable {α β : Type}

/-- Reports an error. -/
def report (cause : Error) : Guarded α := .error (.reported cause)

/-- Stops at a fault. -/
def fault (cause : Fault) : Guarded α := .error (.fault cause)

/-- A computation without guards. -/
def unguarded (result : Except Error α) : Guarded α :=
  result.mapError .reported

theorem unguarded_ne_fault (result : Except Error α) (cause : Fault) :
    unguarded result ≠ fault cause := by
  cases result with
  | error reported => exact fun h => by cases h
  | ok value => exact fun h => by cases h

theorem unguarded_eq_ok_iff {result : Except Error α} {value : α} :
    unguarded result = .ok value ↔ result = .ok value := by
  cases result with
  | error reported => exact ⟨fun h => (by cases h), fun h => (by cases h)⟩
  | ok other => exact ⟨fun h => (by cases h; rfl), fun h => (by cases h; rfl)⟩

/-- The guarded computation is the one without guards, and the results of the latter have a
property. -/
structure Agrees (guarded : Guarded α) (result : Except Error α) (property : α → Prop) : Prop where
  eq_unguarded : guarded = unguarded result
  property_of_eq_ok : ∀ value, result = .ok value → property value

theorem agrees_ok {value : α} {property : α → Prop} (h : property value) :
    Agrees (.ok value) (.ok value) property := by
  refine ⟨rfl, ?_⟩
  rintro other ⟨⟩
  exact h

theorem agrees_report {cause : Error} {property : α → Prop} :
    Agrees (report cause) (.error cause) property :=
  ⟨rfl, fun _ h => by cases h⟩

theorem agrees_unguarded {result : Except Error α} :
    Agrees (unguarded result) result (fun value => result = .ok value) :=
  ⟨rfl, fun _ h => h⟩

theorem Agrees.mono {guarded : Guarded α} {result : Except Error α} {p q : α → Prop}
    (h : Agrees guarded result p) (hmono : ∀ value, p value → q value) :
    Agrees guarded result q :=
  ⟨h.eq_unguarded, fun value hvalue => hmono value (h.property_of_eq_ok value hvalue)⟩

/-- Guarded computations in a row agree with those without guards if each agrees on the results of
those before. -/
theorem Agrees.bind {guarded : Guarded α} {result : Except Error α} {property : α → Prop}
    {guardedNext : α → Guarded β} {next : α → Except Error β} {nextProperty : β → Prop}
    (h : Agrees guarded result property)
    (hnext : ∀ value, property value → Agrees (guardedNext value) (next value) nextProperty) :
    Agrees (guarded >>= guardedNext) (result >>= next) nextProperty := by
  rw [h.eq_unguarded]
  cases result with
  | error cause => exact agrees_report
  | ok value => exact hnext value (h.property_of_eq_ok value rfl)

theorem Agrees.map {guarded : Guarded α} {result : Except Error α} {property : α → Prop}
    {f : α → β} {nextProperty : β → Prop} (h : Agrees guarded result property)
    (hnext : ∀ value, property value → nextProperty (f value)) :
    Agrees (guarded.map f) (result.map f) nextProperty := by
  rw [h.eq_unguarded]
  cases result with
  | error cause => exact agrees_report
  | ok value => exact agrees_ok (hnext value (h.property_of_eq_ok value rfl))

/-- Powers agree if the products do. -/
theorem agrees_powerBy {guardedMul : α → α → Guarded α} {mul : α → α → Except Error α}
    (h : ∀ a b, Agrees (guardedMul a b) (mul a b) fun _ => True) (result base : α)
    (exponent : Nat) :
    Agrees (powerBy guardedMul result base exponent) (powerBy mul result base exponent)
      fun _ => True := by
  induction exponent using Nat.strongRecOn generalizing result base with
  | ind exponent ih =>
      by_cases hzero : exponent = 0
      · rw [hzero, powerBy_zero, powerBy_zero]
        exact agrees_ok trivial
      · rw [powerBy_of_ne_zero hzero, powerBy_of_ne_zero hzero]
        have hodd : Agrees (mulIfOdd guardedMul result base exponent)
            (mulIfOdd mul result base exponent) fun _ => True := by
          unfold mulIfOdd
          split
          · exact h result base
          · exact agrees_ok trivial
        refine hodd.bind fun next _ => ?_
        split
        · exact agrees_ok trivial
        · refine (h base base).bind fun square _ => ?_
          exact ih (exponent / 2) (Nat.div_lt_self (Nat.pos_of_ne_zero hzero) (by decide)) _ _

end Guarded

end ExactAlgebra
