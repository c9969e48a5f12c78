import ExactAlgebra.Proofs.Expression.Placement
import ExactAlgebra.Proofs.Expression.Recognition

/-!
Two prefix minus signs in place of a prefix plus sign. The signs wait on the stack where the plus
sign leaves nothing. They negate twice when they act, so the only difference they can make is to
stop a reduction that would have gone on below them. Such a reduction comes from a caret: it is
stopped if the signs stand behind another caret and the caret comes right behind their operand. In
all other places the two machines stay in step, up to the signs that still wait in one of them.
-/

namespace ExactAlgebra

theorem Operand.neg_neg (operand : Operand) : operand.neg.neg = operand := by
  cases operand with
  | number value => exact congrArg Operand.number (Rat.neg_neg value)
  | polynomial p =>
      obtain ⟨terms, setting, below⟩ := p
      have hterms : - -terms = terms := by
        ext exponent
        rw [Terms.coeff_neg, Terms.coeff_neg, Rat.neg_neg]
      simp only [neg, Operand.polynomial.injEq]
      change SparsePolynomial.mk (- -terms) setting _ = _
      simp only [hterms]

/-- After a list of tokens an exponent begins: the last caret is followed by plus signs only. The
first argument says whether an exponent begins where the list does. -/
def exponentAfter (begins : Bool) (tokens : List Token) : Bool :=
  tokens.foldl (fun begins token => token = .caret || begins && token = .plus) begins

/-- What is left behind as many closing parentheses as close the given number of open groups. -/
def afterGroups : Nat → List Token → List Token
  | 0, tokens => tokens
  | _ + 1, [] => []
  | groups + 1, .opening :: rest => afterGroups (groups + 2) rest
  | groups + 1, .closing :: rest => afterGroups groups rest
  | groups + 1, _ :: rest => afterGroups (groups + 1) rest

/-- What is left behind an operand, which may have plus signs before it but no minus sign. -/
def afterOperand : List Token → List Token
  | .plus :: rest => afterOperand rest
  | .opening :: rest => afterGroups 1 rest
  | .number _ :: rest | .constant _ :: rest | .symbol :: rest => rest
  | _ => []

/-- The tokens that come right behind the open groups, the innermost group first. -/
def following (tokens : List Token) (groups : Nat) : Option Token :=
  (afterGroups (groups + 1) tokens).head?

theorem following_cons {token : Token} (hopening : token ≠ .opening) (hclosing : token ≠ .closing)
    (rest : List Token) : following (token :: rest) = following rest := by
  funext groups
  cases token <;> first | rfl | contradiction

theorem following_closing_zero (rest : List Token) :
    following (.closing :: rest) 0 = rest.head? := by
  rw [following, afterGroups, afterGroups]

namespace Machine

variable {symbol : Char} {level : Precedence} {next : Nat → Option Token}
  {pending doubled : List Pending} {values left : List Operand}

theorem reduce_two_negations (hlevel : level.rank ≤ Precedence.sign.rank) (hvalues : values ≠ [])
    (i j : Nat) (pending : List Pending) :
    reduce level (.operator .negate i :: .operator .negate j :: pending) values =
      reduce level pending values := by
  obtain ⟨value, others, rfl⟩ := List.exists_cons_of_ne_nil hvalues
  rw [reduce_operator hlevel]
  change reduce level (.operator .negate j :: pending) (value.neg :: others) = _
  rw [reduce_operator hlevel]
  change reduce level pending (value.neg.neg :: others) = _
  rw [Operand.neg_neg]

/-- The same operators and groups wait, but in one of the stacks there are also pairs of negations:
above what does not act at the level of powers, and right inside of groups that no caret follows. -/
inductive Doubled : (Nat → Option Token) → List Pending → List Pending → Prop
  | nil {next : Nat → Option Token} : Doubled next [] []
  | operator {next : Nat → Option Token} {pending doubled : List Pending} (operator : Operator)
      (i j : Nat) (h : Doubled next pending doubled) :
      Doubled next (.operator operator i :: pending) (.operator operator j :: doubled)
  | opening {next : Nat → Option Token} {pending doubled : List Pending} (i j : Nat)
      (h : Doubled (fun groups => next (groups + 1)) pending doubled) :
      Doubled next (.opening i :: pending) (.opening j :: doubled)
  | signs {next : Nat → Option Token} {pending doubled : List Pending} (i j : Nat)
      (hwaits : Waits .power pending) (h : Doubled next pending doubled) :
      Doubled next pending (.operator .negate i :: .operator .negate j :: doubled)
  | group {next : Nat → Option Token} {pending doubled : List Pending} (i j k l : Nat)
      (hcaret : next 0 ≠ some .caret)
      (h : Doubled (fun groups => next (groups + 1)) pending doubled) :
      Doubled next (.opening i :: pending)
        (.opening j :: .operator .negate k :: .operator .negate l :: doubled)

theorem Doubled.any_isOpening (h : Doubled next pending doubled) :
    doubled.any Pending.isOpening = pending.any Pending.isOpening := by
  induction h with
  | nil => rfl
  | operator operator i j h ih => exact ih
  | opening i j h ih => rfl
  | signs i j hwaits h ih => exact ih
  | group i j k l hcaret h ih => rfl

theorem alike_apply (operator : Operator) (i j : Nat) (values : List Operand) :
    Alike Eq (operator.apply i values) (operator.apply j values) := by
  match values with
  | [] => cases operator <;> exact .error rfl
  | [value] =>
      cases operator with
      | negate => exact .ok rfl
      | add | subtract | multiply | remainder | power => exact .error rfl
  | right :: left :: rest =>
      cases operator with
      | negate => exact .ok rfl
      | add | subtract | multiply | remainder | power => exact .refl _

theorem ne_nil_of_apply {operator : Operator} {position : Nat}
    (h : operator.apply position values = .ok left) : left ≠ [] := by
  rcases apply_cases h with ⟨a, others, _, _, rfl⟩ | ⟨a, b, c, others, _, _, _, rfl⟩
  · exact List.cons_ne_nil _ _
  · exact List.cons_ne_nil _ _

/-- States of a reduction with the same values and, up to pairs of negations, the same operators. -/
def SameState (next : Nat → Option Token) (a b : List Pending × List Operand) : Prop :=
  a.2 = b.2 ∧ Doubled next a.1 b.1

theorem alike_reduce (h : Doubled next pending doubled) (hvalues : values ≠ []) :
    Alike (SameState next) (reduce level pending values) (reduce level doubled values) := by
  induction h generalizing values with
  | nil => exact .ok ⟨rfl, .nil⟩
  | operator operator i j h ih =>
      by_cases hlevel : level.rank ≤ operator.precedence.rank
      · rw [reduce_operator hlevel, reduce_operator hlevel]
        apply (alike_apply operator i j values).bind
        rintro a _ happly rfl
        exact ih (ne_nil_of_apply happly)
      · have hwaits : ∀ position rest, Waits level (.operator operator position :: rest) :=
          fun _ _ => Nat.lt_of_not_le hlevel
        rw [reduce_of_waits (hwaits _ _), reduce_of_waits (hwaits _ _)]
        exact .ok ⟨rfl, .operator operator i j h⟩
  | opening i j h => exact .ok ⟨rfl, .opening i j h⟩
  | @signs next pending doubled i j hwaits h ih =>
      by_cases hlevel : level.rank ≤ Precedence.sign.rank
      · rw [reduce_two_negations hlevel hvalues]
        exact ih hvalues
      · have hpower : level = .power := by
          cases level <;> first | rfl | exact absurd (by decide) hlevel
        subst hpower
        have hsigns : Waits .power (.operator .negate i :: .operator .negate j :: doubled) :=
          (by decide : Precedence.sign.rank < Precedence.power.rank)
        rw [reduce_of_waits hwaits, reduce_of_waits hsigns]
        exact .ok ⟨rfl, .signs i j hwaits h⟩
  | group i j k l hcaret h => exact .ok ⟨rfl, .group i j k l hcaret h⟩

/-- Machines with the same values and, up to pairs of negations, the same operators. -/
inductive Paired (next : Nat → Option Token) : Machine → Machine → Prop
  | intro {values : List Operand} {pending doubled : List Pending} {expects : Bool}
      (h : Doubled next pending doubled) :
      Paired next ⟨values, pending, expects⟩ ⟨values, doubled, expects⟩

/-- Machines before the same tokens, one of which may have more negations than the other: pairs of
them in its stack, or a pair on top that comes before or behind an operand without a caret. -/
inductive InStep (rest : List Token) : Machine → Machine → Prop
  | paired {machine other : Machine} (h : Paired (following rest) machine other) :
      InStep rest machine other
  | before {values : List Operand} {pending doubled : List Pending} (i j : Nat)
      (hcaret : (afterOperand rest).head? ≠ some .caret)
      (h : Doubled (following rest) pending doubled) :
      InStep rest ⟨values, pending, true⟩
        ⟨values, .operator .negate i :: .operator .negate j :: doubled, true⟩
  | behind {values : List Operand} {pending doubled : List Pending} (i j : Nat)
      (hcaret : rest.head? ≠ some .caret) (h : Doubled (following rest) pending doubled) :
      InStep rest ⟨values, pending, false⟩
        ⟨values, .operator .negate i :: .operator .negate j :: doubled, false⟩

theorem alike_pushBinary {expects : Bool} (h : Doubled next pending doubled)
    (hvalues : values ≠ []) (operator : Operator) (i j : Nat) :
    Alike (Paired next) (pushBinary ⟨values, pending, expects⟩ operator i)
      (pushBinary ⟨values, doubled, expects⟩ operator j) := by
  rw [pushBinary_eq, pushBinary_eq]
  apply (alike_reduce h hvalues).bind
  rintro ⟨waiting, left⟩ ⟨other, _⟩ _ ⟨rfl, hwaiting⟩
  exact .ok (.intro (.operator operator i j hwaiting))

theorem alike_infixOperator {expects : Bool} (h : Doubled next pending doubled)
    (hvalues : expects = false → values ≠ []) (operator : Operator) (i j : Nat) :
    Alike (Paired next) (infixOperator ⟨values, pending, expects⟩ operator i)
      (infixOperator ⟨values, doubled, expects⟩ operator j) := by
  cases expects with
  | true => exact .error rfl
  | false => exact alike_pushBinary h (hvalues rfl) operator i j

theorem closeGroup_two_negations (hvalues : values ≠ []) (position i j : Nat)
    (pending : List Pending) :
    closeGroup position (.operator .negate i :: .operator .negate j :: pending) values =
      closeGroup position pending values := by
  rw [closeGroup_eq_reduce, reduce_two_negations (Nat.zero_le _) hvalues, ← closeGroup_eq_reduce]

/-- The closing parenthesis leaves a pair of negations on top if it stood right before the group. -/
theorem alike_closeGroup {rest : List Token} (h : Doubled next pending doubled)
    (hnext : next = following (.closing :: rest)) (hvalues : values ≠ []) (i j : Nat) :
    Alike (InStep rest)
      (do
        let state ← closeGroup i pending values
        return ⟨state.2, state.1, false⟩)
      (do
        let state ← closeGroup j doubled values
        return ⟨state.2, state.1, false⟩) := by
  induction h generalizing values with
  | nil => exact .error rfl
  | operator operator k l h ih =>
      rw [closeGroup, closeGroup, bind_assoc, bind_assoc]
      apply (alike_apply operator k l values).bind
      rintro a _ happly rfl
      exact ih hnext (ne_nil_of_apply happly)
  | opening k l h =>
      subst hnext
      exact .ok (.paired (.intro h))
  | signs k l hwaits h ih =>
      rw [closeGroup_two_negations hvalues]
      exact ih hnext hvalues
  | group k l m n hcaret h =>
      subst hnext
      rw [following_closing_zero] at hcaret
      exact .ok (.behind m n hcaret h)

theorem alike_close {rest : List Token} {expects : Bool}
    (h : Doubled (following (.closing :: rest)) pending doubled)
    (hvalues : expects = false → values ≠ []) (i j : Nat) :
    Alike (InStep rest) (close ⟨values, pending, expects⟩ i)
      (close ⟨values, doubled, expects⟩ j) := by
  rw [close, close, h.any_isOpening]
  by_cases hopen : pending.any Pending.isOpening = true
  · rw [if_pos hopen, if_pos hopen]
    cases expects with
    | true => exact .error rfl
    | false => exact alike_closeGroup h rfl (hvalues rfl) i j
  · rw [if_neg hopen, if_neg hopen]
    exact .error rfl

theorem alike_take_operand {rest : List Token} {expects : Bool} {token : Token}
    (hbegins : token.beginsOperand = true)
    (h : Doubled (following (token :: rest)) pending doubled) (i j : Nat) :
    Alike (InStep rest) (take symbol ⟨values, pending, expects⟩ ⟨token, i⟩)
      (take symbol ⟨values, doubled, expects⟩ ⟨token, j⟩) := by
  cases token with
  | number value | constant value | symbol =>
      rw [following_cons (by simp) (by simp)] at h
      exact .ok (.paired (.intro h))
  | opening => exact .ok (.paired (.intro (.opening i j h)))
  | closing | plus | minus | star | percent | caret => cases hbegins

/-- One token keeps machines in step that differ in the depth of the stack. -/
theorem alike_step_paired {rest : List Token} {expects : Bool} {token : Token}
    (h : Doubled (following (token :: rest)) pending doubled)
    (hvalues : expects = false → values ≠ []) (i j : Nat) :
    Alike (InStep rest) (step symbol ⟨values, pending, expects⟩ ⟨token, i⟩)
      (step symbol ⟨values, doubled, expects⟩ ⟨token, j⟩) := by
  cases hbegins : token.beginsOperand with
  | true =>
      cases expects with
      | true =>
          rw [step_eq_take (Or.inl rfl), step_eq_take (Or.inl rfl)]
          exact alike_take_operand hbegins h i j
      | false =>
          rw [step_juxtaposed rfl hbegins, step_juxtaposed rfl hbegins]
          apply (alike_pushBinary h (hvalues rfl) .multiply i j).bind
          rintro _ _ _ ⟨hready⟩
          exact alike_take_operand hbegins hready i j
  | false =>
      rw [step_eq_take (Or.inr hbegins), step_eq_take (Or.inr hbegins)]
      cases token with
      | number | constant | symbol | opening => cases hbegins
      | closing => exact alike_close h hvalues i j
      | plus =>
          rw [following_cons (by simp) (by simp)] at h
          cases expects with
          | true => exact .ok (.paired (.intro h))
          | false => exact (alike_pushBinary h (hvalues rfl) .add i j).mono fun _ _ => .paired
      | minus =>
          rw [following_cons (by simp) (by simp)] at h
          cases expects with
          | true => exact .ok (.paired (.intro (.operator .negate i j h)))
          | false => exact (alike_pushBinary h (hvalues rfl) .subtract i j).mono fun _ _ => .paired
      | star | percent | caret =>
          rw [following_cons (by simp) (by simp)] at h
          exact (alike_infixOperator h hvalues _ i j).mono fun _ _ => .paired

/-- A pair of negations that waits for its operand keeps the machines in step. A third sign makes
them a pair above a negation, where no caret reaches below them. -/
theorem alike_step_before {rest : List Token} {token : Token} (k l : Nat)
    (hcaret : (afterOperand (token :: rest)).head? ≠ some .caret)
    (h : Doubled (following (token :: rest)) pending doubled) (i j : Nat) :
    Alike (InStep rest) (step symbol ⟨values, pending, true⟩ ⟨token, i⟩)
      (step symbol ⟨values, .operator .negate k :: .operator .negate l :: doubled, true⟩
        ⟨token, j⟩) := by
  rw [step_eq_take (Or.inl rfl), step_eq_take (Or.inl rfl)]
  cases token with
  | number | constant | symbol =>
      rw [following_cons (by simp) (by simp)] at h
      exact .ok (.behind k l hcaret h)
  | opening => exact .ok (.paired (.intro (.group i j k l hcaret h)))
  | closing =>
      simp only [take, close, List.any_cons, Pending.isOpening, Bool.false_or, h.any_isOpening]
      split
      · exact .error rfl
      · exact .error rfl
  | plus =>
      rw [following_cons (by simp) (by simp)] at h
      exact .ok (.before k l hcaret h)
  | minus =>
      rw [following_cons (by simp) (by simp)] at h
      have hwaits : Waits .power (.operator .negate i :: pending) :=
        (by decide : Precedence.sign.rank < Precedence.power.rank)
      exact .ok (.paired (.intro (.signs j k hwaits (.operator .negate i l h))))
  | star | percent | caret => exact .error rfl

theorem pushBinary_two_negations {expects : Bool} {operator : Operator}
    (hlevel : operator.precedence.rank ≤ Precedence.sign.rank) (hvalues : values ≠ [])
    (position i j : Nat) (pending : List Pending) :
    pushBinary ⟨values, .operator .negate i :: .operator .negate j :: pending, expects⟩ operator
        position = pushBinary ⟨values, pending, expects⟩ operator position := by
  rw [pushBinary_eq, pushBinary_eq, reduce_two_negations hlevel hvalues]

/-- Behind an operand a pair of negations acts as soon as any other token than a caret comes. -/
theorem step_two_negations {placed : PlacedToken} (hcaret : placed.token ≠ .caret)
    (hvalues : values ≠ []) (i j : Nat) (pending : List Pending) :
    step symbol ⟨values, .operator .negate i :: .operator .negate j :: pending, false⟩ placed =
      step symbol ⟨values, pending, false⟩ placed := by
  obtain ⟨token, position⟩ := placed
  cases token with
  | number | constant | symbol | opening =>
      rw [step_juxtaposed rfl rfl, step_juxtaposed rfl rfl,
        pushBinary_two_negations (by decide) hvalues]
  | closing =>
      rw [step_eq_take (Or.inr rfl), step_eq_take (Or.inr rfl)]
      change close _ position = close _ position
      simp only [close, closeGroup_two_negations hvalues]
      rfl
  | plus | minus | star | percent =>
      rw [step_operator rfl rfl, step_operator rfl rfl,
        pushBinary_two_negations (by decide) hvalues]
  | caret => exact absurd rfl hcaret

/-- Behind an operand there is a value. -/
def Ready (machine : Machine) : Prop := machine.expectsOperand = false → machine.values ≠ []

theorem ne_nil_of_closeGroup {position : Nat} {rest : List Pending} (hvalues : values ≠ [])
    (h : closeGroup position pending values = .ok (rest, left)) : left ≠ [] := by
  induction pending generalizing values with
  | nil => cases h
  | cons entry pending ih =>
      cases entry with
      | opening opened =>
          cases h
          exact hvalues
      | operator operator opened =>
          obtain ⟨middle, happly, hrest⟩ := eq_ok_of_bind h
          exact ih (ne_nil_of_apply happly) hrest

theorem ready_of_step {machine next : Machine} {placed : PlacedToken} (hready : Ready machine)
    (h : machine.step symbol placed = .ok next) : Ready next := by
  intro hexpects
  rw [(shape_of_step h).1] at hexpects
  obtain ⟨token, position⟩ := placed
  cases token with
  | number | constant | symbol =>
      obtain ⟨ready, _, htake⟩ := eq_ok_of_bind h
      cases htake
      exact List.cons_ne_nil _ _
  | closing =>
      rw [step_eq_take (Or.inr rfl)] at h
      obtain ⟨hbehind, hclose, _⟩ := closeGroup_of_close h
      exact ne_nil_of_closeGroup (hready hbehind) hclose
  | opening | plus | minus | star | percent | caret => cases hexpects

theorem alike_step {rest : List Token} {token : Token} {machine other : Machine}
    (h : InStep (token :: rest) machine other) (hready : Ready machine) (i j : Nat) :
    Alike (InStep rest) (machine.step symbol ⟨token, i⟩) (other.step symbol ⟨token, j⟩) := by
  cases h with
  | paired h =>
      cases h with
      | intro h => exact alike_step_paired h hready i j
  | before k l hcaret h => exact alike_step_before k l hcaret h i j
  | behind k l hcaret h =>
      have htoken : token ≠ .caret := by simpa using hcaret
      rw [step_two_negations htoken (hready rfl)]
      exact alike_step_paired h hready i j

theorem alike_run {tokens others : List PlacedToken} {machine other : Machine}
    (h : InStep (tokens.map PlacedToken.token) machine other) (hready : Ready machine)
    (hothers : others.map PlacedToken.token = tokens.map PlacedToken.token) :
    Alike (fun a b => InStep [] a b ∧ Ready a) (machine.run symbol tokens)
      (other.run symbol others) := by
  induction tokens generalizing machine other others with
  | nil =>
      obtain rfl := List.map_eq_nil_iff.1 hothers
      exact .ok ⟨h, hready⟩
  | cons placed rest ih =>
      obtain ⟨⟨token, j⟩, others, rfl, htoken, hrest⟩ := List.map_eq_cons_iff.1 hothers
      obtain ⟨_, i⟩ := placed
      cases htoken
      apply (alike_step h hready i j).bind
      intro a b hstep hab
      exact ih hab (ready_of_step hready hstep) hrest

theorem drain_two_negations (hvalues : values ≠ []) (i j : Nat) (pending : List Pending) :
    drain (.operator .negate i :: .operator .negate j :: pending) values =
      drain pending values := by
  rw [drain_eq_reduce, reduce_two_negations (Nat.zero_le _) hvalues, ← drain_eq_reduce]

theorem alike_drain (h : Doubled next pending doubled) (hvalues : values ≠ []) :
    Alike Eq (drain pending values) (drain doubled values) := by
  induction h generalizing values with
  | nil => exact .ok rfl
  | operator operator i j h ih =>
      rw [drain, drain]
      apply (alike_apply operator i j values).bind
      rintro a _ happly rfl
      exact ih (ne_nil_of_apply happly)
  | opening i j h => exact .error rfl
  | signs i j hwaits h ih =>
      rw [drain_two_negations hvalues]
      exact ih hvalues
  | group i j k l hcaret h => exact .error rfl

theorem alike_finish_of_drain {machine other : Machine} (hmachine : machine.expectsOperand = false)
    (hother : other.expectsOperand = false)
    (h : Alike Eq (drain machine.pending machine.values) (drain other.pending other.values))
    (i j : Nat) : Alike Eq (machine.finish i) (other.finish j) := by
  rw [finish, finish, hmachine, hother]
  apply h.bind
  rintro left _ _ rfl
  cases left with
  | nil => exact .error rfl
  | cons value others => exact .ok rfl

theorem alike_finish {machine other : Machine} (h : InStep [] machine other)
    (hready : Ready machine) (i j : Nat) : Alike Eq (machine.finish i) (other.finish j) := by
  cases h with
  | paired h =>
      cases h with
      | @intro values pending doubled expects h =>
          cases expects with
          | true => exact .error rfl
          | false =>
              have hdrain := alike_drain h (hready rfl)
              exact alike_finish_of_drain rfl rfl hdrain i j
  | before => exact .error rfl
  | behind k l hcaret h =>
      apply alike_finish_of_drain rfl rfl
      rw [drain_two_negations (hready rfl)]
      exact alike_drain h (hready rfl)

theorem Doubled.refl (next : Nat → Option Token) (pending : List Pending) :
    Doubled next pending pending := by
  induction pending generalizing next with
  | nil => exact .nil
  | cons entry pending ih =>
      cases entry with
      | operator operator position => exact .operator operator position position (ih next)
      | opening position => exact .opening position position (ih _)

/-- Where an operand is expected, what waits acts at the level of powers only behind a caret. -/
def WaitsUnless (exponent : Bool) (machine : Machine) : Prop :=
  machine.expectsOperand = true → exponent = false → Waits .power machine.pending

theorem waits_of_pushBinary {machine next : Machine} {operator : Operator} {position : Nat}
    (hlevel : operator.precedence.rank < Precedence.power.rank)
    (h : machine.pushBinary operator position = .ok next) : Waits .power next.pending := by
  rw [pushBinary_eq] at h
  obtain ⟨state, _, hnext⟩ := eq_ok_of_bind h
  cases hnext
  exact hlevel

theorem waitsUnless_of_step {machine next : Machine} {placed : PlacedToken} {exponent : Bool}
    (hwaits : WaitsUnless exponent machine) (h : machine.step symbol placed = .ok next) :
    WaitsUnless (exponentAfter exponent [placed.token]) next := by
  intro hexpects hexponent
  rw [(shape_of_step h).1] at hexpects
  obtain ⟨token, position⟩ := placed
  cases token with
  | number | constant | symbol | closing => cases hexpects
  | opening =>
      obtain ⟨ready, _, htake⟩ := eq_ok_of_bind h
      cases htake
      trivial
  | plus =>
      rw [step_eq_take (Or.inr rfl)] at h
      simp only [take] at h
      split at h
      · rename_i hexpected
        cases h
        exact hwaits hexpected (by simpa [exponentAfter] using hexponent)
      · exact waits_of_pushBinary (by decide) h
  | minus =>
      rw [step_eq_take (Or.inr rfl)] at h
      simp only [take] at h
      split at h
      · cases h
        exact (by decide : Precedence.sign.rank < Precedence.power.rank)
      · exact waits_of_pushBinary (by decide) h
  | star | percent =>
      have hbehind := expectsOperand_of_step h (by simp)
      rw [step_operator hbehind rfl] at h
      exact waits_of_pushBinary (by decide) h
  | caret => simp [exponentAfter] at hexponent

theorem waitsUnless_of_run {machine next : Machine} {tokens : List PlacedToken} {exponent : Bool}
    (hwaits : WaitsUnless exponent machine) (h : machine.run symbol tokens = .ok next) :
    WaitsUnless (exponentAfter exponent (tokens.map PlacedToken.token)) next := by
  induction tokens generalizing machine exponent with
  | nil =>
      cases h
      exact hwaits
  | cons placed rest ih =>
      obtain ⟨middle, hstep, hrun⟩ := eq_ok_of_bind h
      exact ih (waitsUnless_of_step hwaits hstep) hrun

theorem run_prefix_minus {machine : Machine} (hexpects : machine.expectsOperand = true)
    (position : Nat) (rest : List PlacedToken) :
    machine.run symbol (⟨.minus, position⟩ :: rest) =
      run symbol ⟨machine.values, .operator .negate position :: machine.pending, true⟩ rest := by
  rw [run, step_eq_take (Or.inl hexpects)]
  simp only [take, if_pos hexpects]
  rfl

/-- Two prefix minus signs do what a prefix plus sign does, unless their operand is the exponent of
one power and the base of another. -/
theorem alike_evaluate {left right others : List PlacedToken}
    (hexpected : expectsAfter true (left.map PlacedToken.token) = true)
    (hcaret : exponentAfter false (left.map PlacedToken.token) = true →
      (afterOperand (right.map PlacedToken.token)).head? ≠ some .caret)
    (hothers : others.map PlacedToken.token = right.map PlacedToken.token)
    (i j k plusEnd minusEnd : Nat) :
    Alike Eq (evaluate symbol (left ++ ⟨.plus, i⟩ :: right) plusEnd)
      (evaluate symbol (left ++ ⟨.minus, j⟩ :: ⟨.minus, k⟩ :: others) minusEnd) := by
  rw [evaluate, evaluate, run_append, run_append, bind_assoc, bind_assoc]
  apply (Alike.refl _).bind
  rintro machine _ hleft rfl
  have hexpects : machine.expectsOperand = true := by
    rw [(shape_of_run hleft).1]
    exact hexpected
  have hinitial : WaitsUnless false initial := fun _ _ => trivial
  have hwaits := waitsUnless_of_run hinitial hleft
  obtain ⟨values, pending, _⟩ := machine
  cases hexpects
  have hstart : InStep (right.map PlacedToken.token) ⟨values, pending, true⟩
      ⟨values, .operator .negate k :: .operator .negate j :: pending, true⟩ := by
    cases hexponent : exponentAfter false (left.map PlacedToken.token) with
    | true => exact .before k j (hcaret hexponent) (.refl _ pending)
    | false => exact .paired (.intro (.signs k j (hwaits rfl hexponent) (.refl _ pending)))
  rw [run, step_prefix_plus rfl rfl, run_prefix_minus rfl, run_prefix_minus rfl]
  apply (alike_run hstart (fun h => by cases h) hothers).bind
  intro a b _ hab
  exact alike_finish hab.1 hab.2 plusEnd minusEnd

end Machine

end ExactAlgebra
