import ExactAlgebra.Rational.Basic
import ExactAlgebra.Terms.Division

/-!
Polynomials in one variable. A polynomial is a sum of terms with exponents below `2^32`, together
with its setting: the symbol that stands for the variable, and the moduli that powers are reduced
by. The setting says how a polynomial is written and raised to powers; it is no part of its value,
of which only the symbol and the terms are compared.
-/

namespace ExactAlgebra

/-- Exponents are below this limit. -/
def exponentLimit : Nat := 4294967296

/-- The exponents that a polynomial can have. -/
abbrev Exponent := Fin exponentLimit

def zeroExponent : Exponent := ⟨0, by decide⟩

def oneExponent : Exponent := ⟨1, by decide⟩

/-- A coefficient that can be divided by. -/
abbrev NonzeroRat := { value : Rat // value ≠ 0 }

/-- A nonzero polynomial that serves as a modulus, without its own polynomial modulus. -/
structure PolynomialModulus where
  terms : Terms
  symbol : Char
  coefficientModulus : Option NonzeroRat
  below : terms.Below exponentLimit
  nonzero : terms ≠ 0

/-- The symbol of the variable and the moduli. The polynomial modulus is itself a polynomial with
a setting, so the moduli form a chain: the first is the modulus, the second the modulus of the
first, and so on. -/
structure Setting where
  symbol : Char
  coefficientModulus : Option NonzeroRat
  modulusChain : List PolynomialModulus

/-- A variable without moduli. -/
def Setting.plain (symbol : Char) : Setting := ⟨symbol, none, []⟩

/-- The variable `x` without moduli. -/
def Setting.standard : Setting := .plain 'x'

/-- There are no moduli. -/
def Setting.isFree (setting : Setting) : Bool :=
  setting.modulusChain.isEmpty && setting.coefficientModulus.isNone

/-- A sum of terms in a setting. -/
structure SparsePolynomial where
  terms : Terms
  setting : Setting
  below : terms.Below exponentLimit

/-- An integer as an exponent. -/
def exponent? (value : Int) : Option Exponent :=
  if h : 0 ≤ value ∧ value.toNat < exponentLimit then some ⟨value.toNat, h.2⟩ else none

/-- An integer as the exponent of a term. -/
def termExponent (value : Int) : Except Error Exponent :=
  match exponent? value with
  | none => .error (.invalidTerm .exponentOutOfRange)
  | some exponent => .ok exponent

namespace SparsePolynomial

/-- The same setting with other terms. -/
def withTerms (p : SparsePolynomial) (terms : Terms) (below : terms.Below exponentLimit) :
    SparsePolynomial :=
  { p with terms := terms, below := below }

/-- Zero in a setting. -/
def zeroIn (setting : Setting) : SparsePolynomial :=
  ⟨0, setting, Terms.below_zero _⟩

/-- One term in a setting. -/
def termIn (setting : Setting) (coefficient : Rat) (exponent : Exponent) : SparsePolynomial :=
  ⟨Terms.single ⟨coefficient, exponent.val⟩, setting, Terms.below_single exponent.isLt⟩

/-- A constant in a setting. -/
def constantIn (setting : Setting) (value : Rat) : SparsePolynomial :=
  termIn setting value zeroExponent

def term (coefficient : Rat) (exponent : Exponent) : SparsePolynomial :=
  termIn .standard coefficient exponent

def constant (value : Rat) : SparsePolynomial :=
  constantIn .standard value

/-- The sum of a list of terms, in which exponents may repeat. -/
def ofTerms (list : List (Rat × Exponent)) : SparsePolynomial :=
  ⟨Terms.ofList (list.map fun t => ⟨t.1, t.2.val⟩), .standard,
    Terms.below_ofList fun t ht => by
      obtain ⟨u, _, rfl⟩ := List.mem_map.1 ht
      exact u.2.isLt⟩

/-- The sum of the terms with these coefficients and exponents. -/
def ofLists (coefficients : List Rat) (exponents : List Int) : Except Error SparsePolynomial :=
  if coefficients.length ≠ exponents.length then .error (.invalidTerm .lengthsDiffer)
  else do
    let exponents ← exponents.mapM termExponent
    return ofTerms (coefficients.zip exponents)

def symbol (p : SparsePolynomial) : Char := p.setting.symbol

def coefficientModulus (p : SparsePolynomial) : Option Rat :=
  p.setting.coefficientModulus.map Subtype.val

/-- The polynomial modulus, with its own setting. -/
def polynomialModulus (p : SparsePolynomial) : Option SparsePolynomial :=
  match p.setting.modulusChain with
  | [] => none
  | modulus :: rest =>
      some ⟨modulus.terms, ⟨modulus.symbol, modulus.coefficientModulus, rest⟩, modulus.below⟩

/-- Polynomials are compared by symbol and terms. -/
instance : BEq SparsePolynomial :=
  ⟨fun p q => p.symbol == q.symbol && p.terms == q.terms⟩

theorem beq_iff (p q : SparsePolynomial) :
    (p == q) = true ↔ p.symbol = q.symbol ∧ p.terms = q.terms := by
  change (p.symbol == q.symbol && p.terms == q.terms) = true ↔ _
  simp

def withSymbol (p : SparsePolynomial) (symbol : Char) : SparsePolynomial :=
  { p with setting := { p.setting with symbol := symbol } }

def withCoefficientModulus (p : SparsePolynomial) (modulus : Rat) :
    Except Error SparsePolynomial :=
  if h : modulus = 0 then .error .divisionByZero
  else .ok { p with setting := { p.setting with coefficientModulus := some ⟨modulus, h⟩ } }

/-- The chain of moduli that begins with a given polynomial. -/
def chainFrom (modulus : SparsePolynomial) (nonzero : modulus.terms ≠ 0) :
    List PolynomialModulus :=
  ⟨modulus.terms, modulus.symbol, modulus.setting.coefficientModulus, modulus.below, nonzero⟩ ::
    modulus.setting.modulusChain

def withPolynomialModulus (p modulus : SparsePolynomial) : Except Error SparsePolynomial :=
  if h : modulus.terms = 0 then .error .divisionByZero
  else .ok { p with setting := { p.setting with modulusChain := chainFrom modulus h } }

/-- The polynomial modulus reads back as it was given. -/
theorem polynomialModulus_of_withPolynomialModulus {p modulus result : SparsePolynomial}
    (h : p.withPolynomialModulus modulus = .ok result) :
    result.polynomialModulus = some modulus := by
  unfold withPolynomialModulus at h
  split at h
  · cases h
  · cases h
    rfl

/-- The polynomial is zero. -/
def isZero (p : SparsePolynomial) : Bool := p.terms.isZero

/-- The largest exponent, which is zero for the zero polynomial. -/
def degree (p : SparsePolynomial) : Nat := p.terms.degree

/-- The coefficient of the stored term with this exponent, if there is one. -/
def coefficient? (p : SparsePolynomial) (exponent : Nat) : Option Rat := p.terms.get? exponent

/-- The term is one of the stored terms. -/
def contains (p : SparsePolynomial) (t : Term) : Bool :=
  p.coefficient? t.exponent == some t.coefficient

/-- The degree is zero. -/
def isConstant (p : SparsePolynomial) : Bool := p.degree == 0

def constantValue? (p : SparsePolynomial) : Option Rat :=
  if p.degree = 0 then p.coefficient? 0 else none

def isOne (p : SparsePolynomial) : Bool := p.constantValue? == some 1

theorem degree_lt (p : SparsePolynomial) : p.degree < exponentLimit := by
  by_cases h : p.terms = 0
  · rw [degree, h, Terms.degree_zero]
    decide
  · exact Terms.degree_lt_of_below p.below h

/-- The polynomial with a given coefficient at an exponent. -/
def setTerm (p : SparsePolynomial) (coefficient : Rat) (exponent : Exponent) : SparsePolynomial :=
  p.withTerms (p.terms.replace ⟨coefficient, exponent.val⟩)
    (Terms.below_replace p.below exponent.isLt)

def addTerm (p : SparsePolynomial) (coefficient : Rat) (exponent : Exponent) : SparsePolynomial :=
  p.withTerms (p.terms.accumulate ⟨coefficient, exponent.val⟩)
    (Terms.below_accumulate p.below exponent.isLt)

/-- Zero in the setting of the polynomial. -/
def cleared (p : SparsePolynomial) : SparsePolynomial := zeroIn p.setting

/-- The value at a number. -/
def evaluate (p : SparsePolynomial) (x : Rat) : Rat := p.terms.evaluate x

end SparsePolynomial

end ExactAlgebra
