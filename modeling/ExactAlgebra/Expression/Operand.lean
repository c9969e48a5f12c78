import ExactAlgebra.SparsePolynomial.Composition
import ExactAlgebra.SparsePolynomial.Printer

/-!
Values of expressions: plain numbers and polynomials. A number that meets a polynomial acts as the
constant polynomial in the other operand's variable, without moduli.
-/

namespace ExactAlgebra

/-- A number or a polynomial. -/
inductive Operand where
  | number (value : Rat)
  | polynomial (value : SparsePolynomial)

namespace Operand

instance : BEq Operand where
  beq
    | .number a, .number b => a == b
    | .polynomial p, .polynomial q => p == q
    | _, _ => false

def isNumber : Operand → Bool
  | .number _ => true
  | .polynomial _ => false

/-- A number as the constant in a variable. -/
def promote (symbol : Char) (value : Rat) : SparsePolynomial :=
  .constantIn (.plain symbol) value

/-- The operand as a polynomial, where a number becomes a constant in the given variable. -/
def toPolynomial (symbol : Char) : Operand → SparsePolynomial
  | .number value => promote symbol value
  | .polynomial p => p

/-- The value of a number or of a constant polynomial. -/
def constant? : Operand → Option Rat
  | .number value => some value
  | .polynomial p => p.constantValue?

def add : Operand → Operand → Operand
  | .number a, .number b => .number (a + b)
  | .number a, .polynomial q => .polynomial (promote q.symbol a + q)
  | .polynomial p, .number b => .polynomial (p.addConstant b)
  | .polynomial p, .polynomial q => .polynomial (p + q)

def sub : Operand → Operand → Operand
  | .number a, .number b => .number (a - b)
  | .number a, .polynomial q => .polynomial (promote q.symbol a - q)
  | .polynomial p, .number b => .polynomial (p.subConstant b)
  | .polynomial p, .polynomial q => .polynomial (p - q)

def neg : Operand → Operand
  | .number a => .number (-a)
  | .polynomial p => .polynomial (-p)

def mul : Operand → Operand → Except Error Operand
  | .number a, .number b => .ok (.number (a * b))
  | .number a, .polynomial q => ((promote q.symbol a).mul q).map .polynomial
  | .polynomial p, .number b => .ok (.polynomial (p.scale b))
  | .polynomial p, .polynomial q => (p.mul q).map .polynomial

/-- The remainder of a polynomial: coefficient by coefficient when the divisor is constant, and by
long division otherwise. -/
def modOperand (p : SparsePolynomial) (divisor : Operand) : Except Error SparsePolynomial :=
  match divisor.constant? with
  | some modulus => p.modScalar modulus
  | none => p.mod (divisor.toPolynomial p.symbol)

def mod : Operand → Operand → Except Error Operand
  | .number a, .number b =>
      if b = 0 then .error .divisionByZero else .ok (.number (floorMod a b))
  | .number a, .polynomial q =>
      (modOperand (promote q.symbol a) (.polynomial q)).map .polynomial
  | .polynomial p, divisor => (modOperand p divisor).map .polynomial

/-- The written form, where a number is written as a constant polynomial. -/
def text : Operand → List Char
  | .number value => (SparsePolynomial.constant value).text
  | .polynomial p => p.text

/-- The operand as the exponent of a power, which has to be a constant natural number in range. -/
def exponent (operand : Operand) : Except Error Exponent :=
  match operand.constant? with
  | some value => SparsePolynomial.powerExponent value
  | none => .error (.invalidExponent (String.ofList operand.text))

def pow (base power : Operand) : Except Error Operand := do
  let exponent ← power.exponent
  match base with
  | .number value => .ok (.number (value ^ exponent.val))
  | .polynomial p => (p.pow exponent.val).map .polynomial

/-- The value of a polynomial at an operand: evaluation at a number, composition with a
polynomial. -/
def call (p : SparsePolynomial) : Operand → Except Error Operand
  | .number x => .ok (.number (p.evaluate x))
  | .polynomial q => (p.compose q).map .polynomial

end Operand

end ExactAlgebra
