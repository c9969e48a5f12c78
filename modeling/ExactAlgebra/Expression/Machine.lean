import ExactAlgebra.Expression.Operator
import ExactAlgebra.Expression.Token

/-!
Evaluation of a list of tokens with two stacks. Operands go on one stack; operators and open
parentheses wait on the other until an operator that binds no tighter, a closing parenthesis or
the end of the expression lets them act. An operand that follows another is multiplied with it.
-/

namespace ExactAlgebra

/-- What waits for its operands or for its closing parenthesis. -/
inductive Pending where
  | operator (operator : Operator) (position : Nat)
  | opening (position : Nat)
  deriving DecidableEq

/-- Something waiting is an open parenthesis. -/
def Pending.isOpening : Pending → Bool
  | .operator _ _ => false
  | .opening _ => true

/-- Both stacks, top first, and whether an operand comes next. -/
structure Machine where
  values : List Operand
  pending : List Pending
  expectsOperand : Bool

namespace Machine

/-- Empty stacks at the beginning of an expression. -/
def initial : Machine := ⟨[], [], true⟩

/-- Lets the waiting operators act that bind at least as tightly as a level. -/
def reduce (level : Precedence) : List Pending → List Operand →
    Except Error (List Pending × List Operand)
  | .operator operator position :: pending, values =>
      if operator.precedence.rank < level.rank then
        .ok (.operator operator position :: pending, values)
      else do
        let values ← operator.apply position values
        reduce level pending values
  | pending, values => .ok (pending, values)

/-- Puts an operator between two operands on the stack, after those that act before it. -/
def pushBinary (machine : Machine) (operator : Operator) (position : Nat) :
    Except Error Machine := do
  let (pending, values) ← reduce operator.precedence machine.pending machine.values
  return ⟨values, .operator operator position :: pending, true⟩

def pushValue (machine : Machine) (value : Operand) : Machine :=
  ⟨value :: machine.values, machine.pending, false⟩

/-- Lets all operators act back to the last open parenthesis. -/
def closeGroup (position : Nat) : List Pending → List Operand →
    Except Error (List Pending × List Operand)
  | [], _ => .error (.mismatchedParentheses position)
  | .opening _ :: pending, values => .ok (pending, values)
  | .operator operator operatorPosition :: pending, values => do
      let values ← operator.apply operatorPosition values
      closeGroup position pending values

/-- The variable as an operand. -/
def symbolOperand (symbol : Char) : Operand :=
  .polynomial (.termIn (.plain symbol) 1 oneExponent)

/-- Puts the multiplication in that an operand right after another stands for. -/
def juxtapose (machine : Machine) (placed : PlacedToken) : Except Error Machine :=
  if !machine.expectsOperand && placed.token.beginsOperand then
    machine.pushBinary .multiply placed.position
  else .ok machine

/-- Takes an operator that stands behind an operand. -/
def infixOperator (machine : Machine) (operator : Operator) (position : Nat) :
    Except Error Machine :=
  if machine.expectsOperand then .error (.missingOperand position)
  else machine.pushBinary operator position

def close (machine : Machine) (position : Nat) : Except Error Machine :=
  if machine.pending.any Pending.isOpening then
    if machine.expectsOperand then .error (.missingOperand position)
    else do
      let (pending, values) ← closeGroup position machine.pending machine.values
      return ⟨values, pending, false⟩
  else .error (.mismatchedParentheses position)

/-- Takes one token, after the multiplication that it may stand for. -/
def take (symbol : Char) (machine : Machine) (placed : PlacedToken) : Except Error Machine :=
  match placed.token with
  | .number value => .ok (machine.pushValue (.number value))
  | .constant value => .ok (machine.pushValue (.number value))
  | .symbol => .ok (machine.pushValue (symbolOperand symbol))
  | .opening =>
      .ok ⟨machine.values, .opening placed.position :: machine.pending, true⟩
  | .closing => machine.close placed.position
  | .plus =>
      if machine.expectsOperand then .ok machine
      else machine.pushBinary .add placed.position
  | .minus =>
      if machine.expectsOperand then
        .ok ⟨machine.values, .operator .negate placed.position :: machine.pending, true⟩
      else machine.pushBinary .subtract placed.position
  | .star => machine.infixOperator .multiply placed.position
  | .percent => machine.infixOperator .remainder placed.position
  | .caret => machine.infixOperator .power placed.position

/-- The machine after one more token. -/
def step (symbol : Char) (machine : Machine) (placed : PlacedToken) : Except Error Machine := do
  let machine ← machine.juxtapose placed
  machine.take symbol placed

def run (symbol : Char) (machine : Machine) : List PlacedToken → Except Error Machine
  | [] => .ok machine
  | placed :: rest => do
      let machine ← machine.step symbol placed
      run symbol machine rest

def drain : List Pending → List Operand → Except Error (List Operand)
  | [], values => .ok values
  | .opening position :: _, _ => .error (.mismatchedParentheses position)
  | .operator operator position :: pending, values => do
      let values ← operator.apply position values
      drain pending values

/-- The value of the expression that ends at a position. -/
def finish (machine : Machine) (position : Nat) : Except Error Operand :=
  if machine.expectsOperand then .error (.missingOperand position)
  else do
    let values ← drain machine.pending machine.values
    match values with
    | [] => .error (.missingOperand position)
    | value :: _ => return value

/-- The value of a list of tokens in a text that ends at a position. -/
def evaluate (symbol : Char) (tokens : List PlacedToken) (position : Nat) :
    Except Error Operand := do
  let machine ← initial.run symbol tokens
  machine.finish position

end Machine

namespace SparsePolynomial

/-- The polynomial that an expression stands for, in the setting of the vocabulary. -/
def parseWith (vocabulary : Vocabulary) (input : String) : Except Error SparsePolynomial := do
  let characters := input.toList
  let tokens ← vocabulary.tokens characters
  let value ← Machine.evaluate vocabulary.symbol tokens (byteLength characters)
  return vocabulary.configure (value.toPolynomial vocabulary.symbol)

/-- The polynomial in `x` that an expression stands for. -/
def parse (input : String) : Except Error SparsePolynomial :=
  parseWith .standard input

end SparsePolynomial

end ExactAlgebra
