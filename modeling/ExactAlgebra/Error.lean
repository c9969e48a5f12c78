import ExactAlgebra.Text.Quoted

/-!
What can go wrong, by cause, and the one sentence that tells a user about it.
-/

namespace ExactAlgebra

/-- Why a list of terms does not describe a polynomial. -/
inductive TermFault where
  | lengthsDiffer
  | exponentOutOfRange
  | notFinite
  deriving DecidableEq

/-- Quantities that are held in a bounded number of bits. -/
inductive Quantity where
  | polynomialDegree
  | leastCommonMultiple
  deriving DecidableEq

/-- The causes of failure. Positions are byte offsets into the text that was read. -/
inductive Error where
  | mismatchedParentheses (position : Nat)
  | unknownCharacter (character : Char) (position : Nat)
  | malformedNumber (position : Nat)
  | unknownIdentifier (name : String) (position : Nat)
  | missingOperand (position : Nat)
  | invalidTerm (fault : TermFault)
  | divisionByZero
  | invalidExponent (exponent : String)
  | dimensionMismatch (left right : Nat × Nat)
  | notSquare (rows columns : Nat)
  | singular
  | notPositive
  | emptyInput
  | invalidBase (base : Nat)
  | overflow (quantity : Quantity)
  /-- Arithmetic on machine words left their range. True factorizations never cause it. -/
  | wordRange
  /-- There are more entries than can be stored. -/
  | tooLarge
  deriving DecidableEq

/-- The reason that a message gives for an invalid term. -/
def TermFault.reason : TermFault → String
  | .lengthsDiffer => "coefficient and exponent lists differ in length"
  | .exponentOutOfRange => "exponents must be non-negative integers"
  | .notFinite => "coefficients must be finite numbers"

/-- The name of a bounded quantity in messages. -/
def Quantity.name : Quantity → String
  | .polynomialDegree => "polynomial degree"
  | .leastCommonMultiple => "lcm"

/-- A pair of dimensions in messages. -/
def dimensionText (dimension : Nat × Nat) : String :=
  s!"({dimension.1}, {dimension.2})"

/-- The sentence for a failure. -/
def Error.message : Error → String
  | .mismatchedParentheses position => s!"mismatched parentheses at position {position}"
  | .unknownCharacter character position =>
      s!"unknown character {Text.quotedChar character} at position {position}"
  | .malformedNumber position => s!"malformed number literal at position {position}"
  | .unknownIdentifier name position =>
      s!"unknown identifier {Text.quotedString name} at position {position}"
  | .missingOperand position => s!"missing operand at position {position}"
  | .invalidTerm fault => s!"invalid term: {fault.reason}"
  | .divisionByZero => "division by zero"
  | .invalidExponent exponent =>
      s!"invalid exponent {exponent}: only non-negative integer powers are supported"
  | .dimensionMismatch left right =>
      s!"dimension mismatch: {dimensionText left} is incompatible with {dimensionText right}"
  | .notSquare rows columns => s!"matrix of dimension {rows}x{columns} is not square"
  | .singular => "matrix is singular"
  | .notPositive => "expected a positive integer"
  | .emptyInput => "no input provided"
  | .invalidBase base => s!"invalid digit base {base}"
  | .overflow quantity => s!"{quantity.name} overflowed"
  | .wordRange => "word arithmetic out of range"
  | .tooLarge => "too many entries"

end ExactAlgebra
