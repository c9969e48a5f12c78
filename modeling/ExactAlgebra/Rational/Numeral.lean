import ExactAlgebra.Integer.Multiplicity

/-!
The written forms of numbers. An integer is written in decimal. A fraction has two forms: the
plain form `n/d`, and the form that a coefficient takes, which is a decimal when the expansion
ends, with no more places than it needs, and otherwise the fraction in parentheses.
-/

namespace ExactAlgebra.Rational

/-- Decimal digits of a natural number, without leading zeros. -/
def natText (n : Nat) : List Char :=
  Nat.toDigits 10 n

/-- Decimal digits of an integer behind its sign. -/
def intText (n : Int) : List Char :=
  if n < 0 then '-' :: natText n.natAbs else natText n.natAbs

/-- An integer, or numerator and denominator in lowest terms with a slash between. -/
def fractionText (q : Rat) : List Char :=
  if q.den = 1 then intText q.num else intText q.num ++ '/' :: natText q.den

/-- The number of decimal places of a fraction with this denominator in lowest terms. The expansion
ends only if the denominator has no prime factors but two and five, and then the larger of their
exponents is the number of places. -/
def decimalPlaces? (denominator : Nat) : Option Nat :=
  let twos := Integer.divideOut 2 denominator
  let fives := Integer.divideOut 5 twos.2
  if fives.2 = 1 then some (max twos.1 fives.1) else none

/-- Digits of a natural number, filled up with zeros on the left to the given width. -/
def paddedText (width n : Nat) : List Char :=
  (natText n).leftpad width '0'

/-- The magnitude with exactly the given number of places, for a fraction that has no more. -/
def decimalText (places : Nat) (numerator denominator : Nat) : List Char :=
  let unit := Nat.pow 10 places
  let scaled := numerator * unit / denominator
  natText (scaled / unit) ++ '.' :: paddedText places (scaled % unit)

def coefficientText (q : Rat) : List Char :=
  if q.den = 1 then intText q.num
  else match decimalPlaces? q.den with
    | none => '(' :: fractionText q ++ [')']
    | some places =>
        let magnitude := decimalText places q.num.natAbs q.den
        if q.num < 0 then '-' :: magnitude else magnitude

end ExactAlgebra.Rational
