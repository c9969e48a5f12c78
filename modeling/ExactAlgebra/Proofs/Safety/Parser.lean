import ExactAlgebra.Proofs.Expression.Shape
import ExactAlgebra.Proofs.Safety.Arithmetic
import ExactAlgebra.Proofs.Safety.Scanner

/-!
Reading expressions never stops at a fault. The stack of operands always holds one more than there
are operators with two operands waiting, or as many where an operand is expected; so an operator
that acts finds its operands, and one value is left at the end. This is kept by every token, on
every text.
-/

namespace ExactAlgebra.Guarded

def apply (operator : Operator) : List Operand → Guarded (List Operand)
  | [] => fault .operandMissing
  | right :: rest =>
      if operator = .negate then .ok (right.neg :: rest)
      else
        match rest with
        | [] => fault .operandMissing
        | left :: rest => (value left right operator).map (· :: rest)

def reduce (level : Precedence) : List Pending → List Operand →
    Guarded (List Pending × List Operand)
  | .operator operator position :: pending, values =>
      if operator.precedence.rank < level.rank then
        .ok (.operator operator position :: pending, values)
      else do
        let values ← apply operator values
        reduce level pending values
  | pending, values => .ok (pending, values)

def pushBinary (machine : Machine) (operator : Operator) (position : Nat) : Guarded Machine := do
  let (pending, values) ← reduce operator.precedence machine.pending machine.values
  return ⟨values, .operator operator position :: pending, true⟩

def closeGroup (position : Nat) : List Pending → List Operand →
    Guarded (List Pending × List Operand)
  | [], _ => report (.mismatchedParentheses position)
  | .opening _ :: pending, values => .ok (pending, values)
  | .operator operator _ :: pending, values => do
      let values ← apply operator values
      closeGroup position pending values

def juxtapose (machine : Machine) (placed : PlacedToken) : Guarded Machine :=
  if !machine.expectsOperand && placed.token.beginsOperand then
    pushBinary machine .multiply placed.position
  else .ok machine

def infixOperator (machine : Machine) (operator : Operator) (position : Nat) : Guarded Machine :=
  if machine.expectsOperand then report (.missingOperand position)
  else pushBinary machine operator position

def close (machine : Machine) (position : Nat) : Guarded Machine :=
  if machine.pending.any Pending.isOpening then
    if machine.expectsOperand then report (.missingOperand position)
    else do
      let (pending, values) ← closeGroup position machine.pending machine.values
      return ⟨values, pending, false⟩
  else report (.mismatchedParentheses position)

def take (symbol : Char) (machine : Machine) (placed : PlacedToken) : Guarded Machine :=
  match placed.token with
  | .number value => .ok (machine.pushValue (.number value))
  | .constant value => .ok (machine.pushValue (.number value))
  | .symbol => .ok (machine.pushValue (Machine.symbolOperand symbol))
  | .opening => .ok ⟨machine.values, .opening placed.position :: machine.pending, true⟩
  | .closing => close machine placed.position
  | .plus =>
      if machine.expectsOperand then .ok machine
      else pushBinary machine .add placed.position
  | .minus =>
      if machine.expectsOperand then
        .ok ⟨machine.values, .operator .negate placed.position :: machine.pending, true⟩
      else pushBinary machine .subtract placed.position
  | .star => infixOperator machine .multiply placed.position
  | .percent => infixOperator machine .remainder placed.position
  | .caret => infixOperator machine .power placed.position

def run (symbol : Char) (machine : Machine) : List PlacedToken → Guarded Machine
  | [] => .ok machine
  | placed :: rest => do
      let ready ← juxtapose machine placed
      let next ← take symbol ready placed
      run symbol next rest

def drain : List Pending → List Operand → Guarded (List Operand)
  | [], values => .ok values
  | .opening position :: _, _ => report (.mismatchedParentheses position)
  | .operator operator _ :: pending, values => do
      let values ← apply operator values
      drain pending values

/-- The value of the expression that ends at a position, which has to be the only one left. -/
def finish (machine : Machine) (position : Nat) : Guarded Operand :=
  if machine.expectsOperand then report (.missingOperand position)
  else do
    let values ← drain machine.pending machine.values
    match values with
    | [] => fault .valueMissing
    | [value] => return value
    | _ :: _ :: _ => fault .valuesLeft

/-- The polynomial with a modulus for its coefficients, if there is one, which is not refused. -/
def withCoefficientModulus (modulus : Option Rat) (p : SparsePolynomial) :
    Guarded SparsePolynomial :=
  match modulus with
  | none => .ok p
  | some modulus => expect .modulusRefused (unguarded (p.withCoefficientModulus modulus))

/-- The polynomial with a polynomial modulus, if there is one, which is not refused. -/
def withPolynomialModulus (modulus : Option SparsePolynomial) (p : SparsePolynomial) :
    Guarded SparsePolynomial :=
  match modulus with
  | none => .ok p
  | some modulus => expect .modulusRefused (unguarded (p.withPolynomialModulus modulus))

def configure (vocabulary : Vocabulary) (p : SparsePolynomial) : Guarded SparsePolynomial := do
  let reduced ←
    withCoefficientModulus vocabulary.blank.coefficientModulus (p.withSymbol vocabulary.symbol)
  withPolynomialModulus vocabulary.blank.polynomialModulus reduced

/-- The polynomial that an expression stands for, in the setting of the vocabulary. -/
def parse (vocabulary : Vocabulary) (input : String) : Guarded SparsePolynomial := do
  let tokens ← tokensFrom vocabulary input.toList 0
  let machine ← run vocabulary.symbol Machine.initial tokens
  let value ← finish machine (byteLength input.toList)
  configure vocabulary (value.toPolynomial vocabulary.symbol)

/-- The operator takes two operands. -/
def takesTwo : Pending → Bool
  | .operator operator _ => decide (operator ≠ .negate)
  | .opening _ => false

/-- The operands are plain, and there is one more than operators with two operands wait. -/
structure Loaded (symbol : Char) (pending : List Pending) (values : List Operand) : Prop where
  plain : ∀ operand ∈ values, operand.IsPlain symbol
  count : values.length = pending.countP takesTwo + 1

/-- The machine is loaded, or it is once the operand is there that it expects. -/
structure InOrder (symbol : Char) (machine : Machine) : Prop where
  plain : ∀ operand ∈ machine.values, operand.IsPlain symbol
  count : machine.values.length + (if machine.expectsOperand then 1 else 0) =
    machine.pending.countP takesTwo + 1

variable {symbol : Char} {pending : List Pending} {values : List Operand} {machine : Machine}

theorem InOrder.loaded (h : InOrder symbol machine) (hexpects : machine.expectsOperand = false) :
    Loaded symbol machine.pending machine.values := by
  refine ⟨h.plain, ?_⟩
  have hcount := h.count
  rwa [hexpects] at hcount

/-- An operator that acts finds its operands. -/
theorem agrees_apply {operator : Operator} {position : Nat}
    (h : Loaded symbol (.operator operator position :: pending) values) :
    Agrees (apply operator values) (operator.apply position values) (Loaded symbol pending) := by
  obtain ⟨hplain, hcount⟩ := h
  by_cases hnegate : operator = .negate
  · subst hnegate
    rw [List.countP_cons_of_neg Bool.false_ne_true] at hcount
    cases values with
    | nil => cases hcount
    | cons right rest =>
        rw [List.forall_mem_cons] at hplain
        exact agrees_ok ⟨List.forall_mem_cons.2 ⟨hplain.1.neg, hplain.2⟩, hcount⟩
  · rw [List.countP_cons_of_pos (by simpa [takesTwo] using hnegate)] at hcount
    match values, hplain, hcount with
    | right :: left :: rest, hplain, hcount =>
        rw [List.forall_mem_cons, List.forall_mem_cons] at hplain
        obtain ⟨hright, hleft, hrest⟩ := hplain
        rw [apply, if_neg hnegate, Machine.apply_binary hnegate]
        apply (agrees_value hleft hright operator).map
        intro result hresult
        exact ⟨List.forall_mem_cons.2 ⟨hresult, hrest⟩, Nat.succ.inj hcount⟩

theorem agrees_reduce {level : Precedence} (h : Loaded symbol pending values) :
    Agrees (reduce level pending values) (Machine.reduce level pending values)
      fun state => Loaded symbol state.1 state.2 := by
  induction pending generalizing values with
  | nil => exact agrees_ok h
  | cons entry pending ih =>
      cases entry with
      | opening position => exact agrees_ok h
      | operator operator position =>
          rw [reduce, Machine.reduce]
          split
          · exact agrees_ok h
          · exact (agrees_apply h).bind fun next hnext => ih hnext

theorem agrees_pushBinary {operator : Operator} (hoperator : operator ≠ .negate) {position : Nat}
    (h : Loaded symbol machine.pending machine.values) :
    Agrees (pushBinary machine operator position) (machine.pushBinary operator position)
      (InOrder symbol) := by
  refine (agrees_reduce h).bind fun state hstate => ?_
  refine agrees_ok ⟨hstate.plain, ?_⟩
  have htwo : takesTwo (.operator operator position) = true := decide_eq_true hoperator
  rw [List.countP_cons_of_pos htwo]
  exact congrArg (· + 1) hstate.count

theorem agrees_closeGroup {position : Nat} (h : Loaded symbol pending values) :
    Agrees (closeGroup position pending values) (Machine.closeGroup position pending values)
      fun state => Loaded symbol state.1 state.2 := by
  induction pending generalizing values with
  | nil => exact agrees_report
  | cons entry pending ih =>
      cases entry with
      | opening opened => exact agrees_ok ⟨h.plain, h.count⟩
      | operator operator opened => exact (agrees_apply h).bind fun next hnext => ih hnext

theorem agrees_juxtapose {placed : PlacedToken} (h : InOrder symbol machine) :
    Agrees (juxtapose machine placed) (machine.juxtapose placed) fun next =>
      InOrder symbol next ∧ (placed.token.beginsOperand = true → next.expectsOperand = true) := by
  have hguarded : Agrees (juxtapose machine placed) (machine.juxtapose placed)
      (InOrder symbol) := by
    rw [juxtapose, Machine.juxtapose]
    split
    · rename_i hboth
      rw [Bool.and_eq_true, Bool.not_eq_true'] at hboth
      exact agrees_pushBinary (by decide) (h.loaded hboth.1)
    · exact agrees_ok h
  refine ⟨hguarded.eq_unguarded, fun next hnext => ⟨hguarded.property_of_eq_ok next hnext, ?_⟩⟩
  exact (Machine.shape_of_juxtapose hnext).2.1

theorem agrees_infixOperator {operator : Operator} (hoperator : operator ≠ .negate)
    {position : Nat} (h : InOrder symbol machine) :
    Agrees (infixOperator machine operator position) (machine.infixOperator operator position)
      (InOrder symbol) := by
  rw [infixOperator, Machine.infixOperator]
  split
  · exact agrees_report
  · rename_i hexpects
    exact agrees_pushBinary hoperator (h.loaded (Bool.eq_false_of_not_eq_true hexpects))

theorem agrees_close {position : Nat} (h : InOrder symbol machine) :
    Agrees (close machine position) (machine.close position) (InOrder symbol) := by
  rw [close, Machine.close]
  split
  · split
    · exact agrees_report
    · rename_i hexpects
      have hloaded := h.loaded (Bool.eq_false_of_not_eq_true hexpects)
      refine (agrees_closeGroup hloaded).bind fun state hstate => ?_
      exact agrees_ok ⟨hstate.plain, hstate.count⟩
  · exact agrees_report

theorem inOrder_pushValue {operand : Operand} (hoperand : operand.IsPlain symbol)
    (h : InOrder symbol machine) (hexpects : machine.expectsOperand = true) :
    InOrder symbol (machine.pushValue operand) := by
  refine ⟨List.forall_mem_cons.2 ⟨hoperand, h.plain⟩, ?_⟩
  have hcount := h.count
  rwa [hexpects] at hcount

/-- Something that takes no operand of its own may wait where an operand is expected. -/
theorem inOrder_pushPending {entry : Pending} (hentry : takesTwo entry = false)
    (h : InOrder symbol machine) (hexpects : machine.expectsOperand = true) :
    InOrder symbol ⟨machine.values, entry :: machine.pending, true⟩ := by
  refine ⟨h.plain, ?_⟩
  have hcount := h.count
  rw [hexpects] at hcount
  rwa [List.countP_cons_of_neg (by simp [hentry])]

/-- One token is taken without a fault, and leaves the machine in order. -/
theorem agrees_take {placed : PlacedToken} (h : InOrder symbol machine)
    (hexpects : placed.token.beginsOperand = true → machine.expectsOperand = true) :
    Agrees (take symbol machine placed) (machine.take symbol placed) (InOrder symbol) := by
  obtain ⟨token, position⟩ := placed
  cases token with
  | number value | constant value =>
      exact agrees_ok (inOrder_pushValue (Operand.isPlain_number symbol value) h (hexpects rfl))
  | symbol => exact agrees_ok (inOrder_pushValue (Operand.isPlain_symbol symbol) h (hexpects rfl))
  | opening => exact agrees_ok (inOrder_pushPending rfl h (hexpects rfl))
  | closing => exact agrees_close h
  | plus =>
      simp only [take, Machine.take]
      split
      · exact agrees_ok h
      · rename_i hbehind
        exact agrees_pushBinary (by decide) (h.loaded (Bool.eq_false_of_not_eq_true hbehind))
  | minus =>
      simp only [take, Machine.take]
      split
      · rename_i hfront
        exact agrees_ok (inOrder_pushPending rfl h hfront)
      · rename_i hbehind
        exact agrees_pushBinary (by decide) (h.loaded (Bool.eq_false_of_not_eq_true hbehind))
  | star | percent | caret => exact agrees_infixOperator (by decide) h

theorem agrees_run {tokens : List PlacedToken} (h : InOrder symbol machine) :
    Agrees (run symbol machine tokens) (machine.run symbol tokens) (InOrder symbol) := by
  induction tokens generalizing machine with
  | nil => exact agrees_ok h
  | cons placed rest ih =>
      rw [run, Machine.run, Machine.step, bind_assoc]
      refine (agrees_juxtapose h).bind fun ready hready => ?_
      refine (agrees_take hready.1 hready.2).bind fun next hnext => ?_
      exact ih hnext

theorem agrees_drain (h : Loaded symbol pending values) :
    Agrees (drain pending values) (Machine.drain pending values) (Loaded symbol []) := by
  induction pending generalizing values with
  | nil => exact agrees_ok h
  | cons entry pending ih =>
      cases entry with
      | opening opened => exact agrees_report
      | operator operator opened => exact (agrees_apply h).bind fun next hnext => ih hnext

/-- Exactly one value is left at the end. -/
theorem agrees_finish {position : Nat} (h : InOrder symbol machine) :
    Agrees (finish machine position) (machine.finish position) (Operand.IsPlain symbol) := by
  rw [finish, Machine.finish]
  split
  · exact agrees_report
  · rename_i hexpects
    have hloaded := h.loaded (Bool.eq_false_of_not_eq_true hexpects)
    refine (agrees_drain hloaded).bind fun left hleft => ?_
    obtain ⟨value, rfl⟩ := List.length_eq_one_iff.1 hleft.count
    exact agrees_ok (hleft.plain value List.mem_cons_self)

/-- The values of expressions are plain. -/
theorem agrees_evaluate (symbol : Char) (tokens : List PlacedToken) (position : Nat) :
    Agrees (do
      let machine ← run symbol Machine.initial tokens
      finish machine position) (Machine.evaluate symbol tokens position)
      (Operand.IsPlain symbol) := by
  have hinitial : InOrder symbol Machine.initial := ⟨fun _ hmem => (by cases hmem), rfl⟩
  exact (agrees_run hinitial).bind fun machine hmachine => agrees_finish hmachine

/-- The coefficient modulus of a setting is not zero, so it is accepted. -/
theorem withCoefficientModulus_eq (setting : Setting) (p : SparsePolynomial) :
    withCoefficientModulus (SparsePolynomial.zeroIn setting).coefficientModulus p =
      .ok { p with
        setting := { p.setting with
          coefficientModulus := setting.coefficientModulus.or p.setting.coefficientModulus } } := by
  obtain ⟨symbol, coefficient, chain⟩ := setting
  cases coefficient with
  | none => rfl
  | some modulus =>
      change expect _ (unguarded (SparsePolynomial.withCoefficientModulus _ modulus.val)) = _
      rw [SparsePolynomial.withCoefficientModulus, dif_neg modulus.property]
      rfl

/-- The polynomial modulus of a setting is not zero, so it is accepted. -/
theorem withPolynomialModulus_eq (setting : Setting) (p : SparsePolynomial) :
    withPolynomialModulus (SparsePolynomial.zeroIn setting).polynomialModulus p =
      .ok { p with
        setting := { p.setting with
          modulusChain := if setting.modulusChain.isEmpty then p.setting.modulusChain
            else setting.modulusChain } } := by
  obtain ⟨symbol, coefficient, chain⟩ := setting
  cases chain with
  | nil => rfl
  | cons modulus rest =>
      change expect _ (unguarded (SparsePolynomial.withPolynomialModulus _
        ⟨modulus.terms, ⟨modulus.symbol, modulus.coefficientModulus, rest⟩, modulus.below⟩)) = _
      rw [SparsePolynomial.withPolynomialModulus, dif_neg modulus.nonzero]
      rfl

/-- A vocabulary's moduli are accepted. -/
theorem configure_eq (vocabulary : Vocabulary) (p : SparsePolynomial) :
    configure vocabulary p = .ok (vocabulary.configure p) := by
  rw [configure, Vocabulary.blank, withCoefficientModulus_eq]
  exact withPolynomialModulus_eq vocabulary.setting _

/-- Reading an expression never stops at a fault: the guarded parser is the one without guards. -/
theorem parse_never_faults (vocabulary : Vocabulary) (input : String) :
    parse vocabulary input = unguarded (SparsePolynomial.parseWith vocabulary input) ∧
      ∀ cause, parse vocabulary input ≠ fault cause := by
  have hagrees : Agrees (parse vocabulary input) (SparsePolynomial.parseWith vocabulary input)
      fun _ => True := by
    rw [parse, tokens_eq, SparsePolynomial.parseWith]
    refine agrees_unguarded.bind fun tokens _ => ?_
    rw [← bind_assoc]
    refine (agrees_evaluate _ tokens _).bind fun value _ => ?_
    rw [configure_eq]
    exact agrees_ok trivial
  refine ⟨hagrees.eq_unguarded, ?_⟩
  intro cause
  rw [hagrees.eq_unguarded]
  exact unguarded_ne_fault _ cause

end ExactAlgebra.Guarded
