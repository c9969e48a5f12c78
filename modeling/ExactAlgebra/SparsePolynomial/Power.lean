import ExactAlgebra.Power
import ExactAlgebra.Rational.Numeral
import ExactAlgebra.SparsePolynomial.Arithmetic

/-!
Powers of polynomials. Without moduli a power fails exactly when its degree would reach the limit
on exponents. With moduli every product is reduced at once, by the polynomial modulus first and
then coefficient by coefficient, so that degrees stay small when there is a polynomial modulus.
-/

namespace ExactAlgebra.SparsePolynomial

/-- The degree of a power stays below the limit. -/
def requirePowerDegree (p : SparsePolynomial) (exponent : Nat) : Except Error Unit :=
  if p.degree * exponent < exponentLimit then .ok ()
  else .error (.overflow .polynomialDegree)

/-- The exact power, whatever the moduli. -/
def exactPow (p : SparsePolynomial) (exponent : Nat) : Except Error SparsePolynomial := do
  p.requirePowerDegree exponent
  powerBy mul (constantIn p.setting 1) p exponent

/-- The polynomial reduced by the polynomial modulus of a setting. -/
def reducePolynomial (setting : Setting) (p : SparsePolynomial) : SparsePolynomial :=
  match setting.modulusChain with
  | [] => p
  | modulus :: _ =>
      p.withTerms (p.terms.divMod modulus.terms).2 (Terms.below_divMod_snd p.below)

/-- The polynomial with its coefficients reduced by the coefficient modulus of a setting. -/
def reduceCoefficients (setting : Setting) (p : SparsePolynomial) : SparsePolynomial :=
  match setting.coefficientModulus with
  | none => p
  | some modulus => p.mapCoefficients (fun c => floorMod c modulus.val)

def reduce (setting : Setting) (p : SparsePolynomial) : SparsePolynomial :=
  reduceCoefficients setting (reducePolynomial setting p)

def mulReduced (setting : Setting) (p q : SparsePolynomial) : Except Error SparsePolynomial :=
  (p.mul q).map (reduce setting)

/-- The degree of a power stays below the limit, unless a polynomial modulus keeps it small. -/
def requireReducedDegree (p : SparsePolynomial) (exponent : Nat) : Except Error Unit :=
  if p.setting.modulusChain = [] then p.requirePowerDegree exponent else .ok ()

/-- The power with every product reduced. The power zero is one, without a reduction. -/
def reducedPow (p : SparsePolynomial) (exponent : Nat) : Except Error SparsePolynomial := do
  p.requireReducedDegree exponent
  powerBy (mulReduced p.setting) (constantIn p.setting 1) (reduce p.setting p) exponent

def pow (p : SparsePolynomial) (exponent : Nat) : Except Error SparsePolynomial :=
  if p.setting.isFree then p.exactPow exponent else p.reducedPow exponent

/-- A power with an integer as the exponent. -/
def powInt (p : SparsePolynomial) (exponent : Int) : Except Error SparsePolynomial :=
  match exponent? exponent with
  | none => .error (.invalidExponent (String.ofList (Rational.intText exponent)))
  | some exponent => p.pow exponent.val

/-- A rational number as the exponent of a power. -/
def powerExponent (value : Rat) : Except Error Exponent :=
  match if value.den = 1 then exponent? value.num else none with
  | none => .error (.invalidExponent (String.ofList (Rational.fractionText value)))
  | some exponent => .ok exponent

/-- The remainder of a product. -/
def mulModulo (modulus p q : SparsePolynomial) : Except Error SparsePolynomial :=
  (p.mul q).map fun product => product.remainder modulus

/-- The remainder of a power by a polynomial, with every product reduced. -/
def powMod (base : SparsePolynomial) (exponent : Nat) (modulus : SparsePolynomial) :
    Except Error SparsePolynomial :=
  if modulus.terms = 0 then .error .divisionByZero
  else do
    let power ← powerBy (mulModulo modulus) (constantIn base.setting 1)
      (base.remainder modulus) exponent
    return power.remainder modulus

end ExactAlgebra.SparsePolynomial
