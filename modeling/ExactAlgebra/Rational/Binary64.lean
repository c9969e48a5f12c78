import ExactAlgebra.Error

/-!
Exact values of 64-bit binary floating-point words. A word holds a sign bit, eleven exponent bits
and 52 fraction bits. Every word with an exponent other than all ones stands for a rational
number, and both zeros stand for zero.
-/

namespace ExactAlgebra.Binary64

def isNegative (word : UInt64) : Bool :=
  decide (9223372036854775808 ≤ word.toNat)

/-- The eleven exponent bits. -/
def exponentBits (word : UInt64) : Nat :=
  word.toNat / 4503599627370496 % 2048

def fractionBits (word : UInt64) : Nat :=
  word.toNat % 4503599627370496

/-- The whole number that is scaled by a power of two: the fraction bits behind a leading one, which
the smallest exponent lacks. -/
def significand (word : UInt64) : Nat :=
  if exponentBits word = 0 then fractionBits word else 4503599627370496 + fractionBits word

/-- The significand times two to the power of `exponent - 1075`, where the two smallest exponents
scale alike. -/
def magnitude (word : UInt64) : Rat :=
  let exponent := max 1 (exponentBits word)
  if 1075 ≤ exponent then ((significand word * Nat.pow 2 (exponent - 1075) : Nat) : Rat)
  else mkRat (significand word) (Nat.pow 2 (1075 - exponent))

/-- The exact value of a word; infinities and the words that are no number have none. -/
def value? (word : UInt64) : Option Rat :=
  if exponentBits word = 2047 then none
  else some (if isNegative word then -magnitude word else magnitude word)

/-- The value of a word as a coefficient. -/
def coefficient (word : UInt64) : Except Error Rat :=
  match value? word with
  | none => .error (.invalidTerm .notFinite)
  | some value => .ok value

end ExactAlgebra.Binary64
