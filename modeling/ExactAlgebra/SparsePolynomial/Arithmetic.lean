import ExactAlgebra.SparsePolynomial.Basic

/-!
Sums, products, quotients and remainders of polynomials. A result takes the setting of the left
operand. A product fails when its degree would reach the limit on exponents, and a division when
the divisor is zero.
-/

namespace ExactAlgebra.SparsePolynomial

instance : Add SparsePolynomial :=
  ⟨fun p q => p.withTerms (p.terms + q.terms) (Terms.below_add p.below q.below)⟩

instance : Sub SparsePolynomial :=
  ⟨fun p q => p.withTerms (p.terms - q.terms) (Terms.below_sub p.below q.below)⟩

instance : Neg SparsePolynomial :=
  ⟨fun p => p.withTerms (-p.terms) (Terms.below_neg p.below)⟩

@[simp] theorem terms_add (p q : SparsePolynomial) : (p + q).terms = p.terms + q.terms := rfl

@[simp] theorem setting_add (p q : SparsePolynomial) : (p + q).setting = p.setting := rfl

@[simp] theorem terms_sub (p q : SparsePolynomial) : (p - q).terms = p.terms - q.terms := rfl

@[simp] theorem terms_neg (p : SparsePolynomial) : (-p).terms = -p.terms := rfl

def addConstant (p : SparsePolynomial) (value : Rat) : SparsePolynomial :=
  p.addTerm value zeroExponent

def subConstant (p : SparsePolynomial) (value : Rat) : SparsePolynomial :=
  p.addConstant (-value)

/-- Every stored coefficient passed through a function. -/
def mapCoefficients (f : Rat → Rat) (p : SparsePolynomial) : SparsePolynomial :=
  p.withTerms (p.terms.mapCoefficients f) (Terms.below_mapCoefficients p.below (by decide) f)

def scale (p : SparsePolynomial) (factor : Rat) : SparsePolynomial :=
  p.mapCoefficients (· * factor)

def mul (p q : SparsePolynomial) : Except Error SparsePolynomial :=
  if h : p.terms = 0 ∨ q.terms = 0 ∨ p.degree + q.degree < exponentLimit then
    .ok (p.withTerms (p.terms * q.terms) (Terms.below_mul fun hp hq => by
      rcases h with h | h | h
      · exact absurd h hp
      · exact absurd h hq
      · exact h))
  else .error (.overflow .polynomialDegree)

/-- A product has the terms of the factors' product and the setting of the left factor. -/
theorem terms_setting_of_mul {p q result : SparsePolynomial} (h : p.mul q = .ok result) :
    result.terms = p.terms * q.terms ∧ result.setting = p.setting := by
  unfold mul at h
  split at h
  · cases h
    exact ⟨rfl, rfl⟩
  · cases h

/-- The quotient of the terms, in the setting of the dividend. -/
def quotient (p d : SparsePolynomial) : SparsePolynomial :=
  p.withTerms (p.terms.divMod d.terms).1 (Terms.below_divMod_fst p.below)

/-- The remainder of the terms, in the setting of the dividend. -/
def remainder (p d : SparsePolynomial) : SparsePolynomial :=
  p.withTerms (p.terms.divMod d.terms).2 (Terms.below_divMod_snd p.below)

def divMod (p d : SparsePolynomial) : Except Error (SparsePolynomial × SparsePolynomial) :=
  if d.terms = 0 then .error .divisionByZero else .ok (p.quotient d, p.remainder d)

def div (p d : SparsePolynomial) : Except Error SparsePolynomial :=
  (p.divMod d).map Prod.fst

def mod (p d : SparsePolynomial) : Except Error SparsePolynomial :=
  (p.divMod d).map Prod.snd

def divScalar (p : SparsePolynomial) (divisor : Rat) : Except Error SparsePolynomial :=
  if divisor = 0 then .error .divisionByZero else .ok (p.mapCoefficients (· / divisor))

/-- The polynomial with every coefficient reduced by a modulus. -/
def modScalar (p : SparsePolynomial) (modulus : Rat) : Except Error SparsePolynomial :=
  if modulus = 0 then .error .divisionByZero
  else .ok (p.mapCoefficients (fun c => floorMod c modulus))

end ExactAlgebra.SparsePolynomial
