import ExactAlgebra.Proofs.Expression.Plain
import ExactAlgebra.Proofs.Safety.Guarded

/-!
Guarded arithmetic of operands. Products and long divisions stop where a sum of exponents passes the
limit, divisions and remainders where they divide by zero, and the product of a number and a
polynomial where its degree overflows, since it has no error for that. None of this happens to plain
operands.
-/

namespace ExactAlgebra.Guarded

/-- All sums of an exponent of a list of terms and a given one are below the limit. -/
def exponentsFit (list : List Term) (exponent : Nat) : Bool :=
  list.all fun t => decide (t.exponent + exponent < exponentLimit)

/-- Turns errors into a fault, where an error is not expected. -/
def expect {α : Type} (cause : Fault) : Guarded α → Guarded α
  | .error (.reported _) => fault cause
  | result => result

/-- The product, term by term. -/
def mul (p q : SparsePolynomial) : Guarded SparsePolynomial :=
  if p.terms = 0 ∨ q.terms = 0 then unguarded (p.mul q)
  else if exponentLimit ≤ p.degree + q.degree then report (.overflow .polynomialDegree)
  else if p.terms.stored.all fun t => exponentsFit q.terms.stored t.exponent then
    unguarded (p.mul q)
  else fault .exponentRange

def pow (p : SparsePolynomial) (exponent : Nat) : Guarded SparsePolynomial :=
  if p.setting.isFree then do
    unguarded (p.requirePowerDegree exponent)
    powerBy mul (.constantIn p.setting 1) p exponent
  else fault .moduliOnOperand

def floorMod (value modulus : Rat) : Guarded Rat :=
  if modulus = 0 then fault .zeroModulus else .ok (ExactAlgebra.floorMod value modulus)

/-- The polynomial with every coefficient reduced by a modulus. -/
def modScalar (p : SparsePolynomial) (modulus : Rat) : Guarded SparsePolynomial :=
  if modulus = 0 then report .divisionByZero
  else do
    let _ ← p.terms.stored.mapM fun t => floorMod t.coefficient modulus
    unguarded (p.modScalar modulus)

def longDivision (p d : Terms) : Guarded (Terms × Terms) :=
  if _h : p = 0 ∨ p.degree < d.degree then .ok (0, p)
  else if d.leading.coefficient = 0 then fault .zeroDivisor
  else if exponentsFit d.stored (p.degree - d.degree) then do
    let rest ← longDivision (Terms.eliminateLeading p d) d
    return (Terms.single (Terms.leadingQuotient p d) + rest.1, rest.2)
  else fault .exponentRange
termination_by p.bound
decreasing_by
  simp only [not_or, Nat.not_lt] at _h
  exact Terms.bound_eliminateLeading_lt _h.1 _h.2

def mod (p d : SparsePolynomial) : Guarded SparsePolynomial :=
  if d.terms = 0 then report .divisionByZero
  else do
    let _ ← longDivision p.terms d.terms
    unguarded (p.mod d)

def modOperand (p : SparsePolynomial) (divisor : Operand) : Guarded SparsePolynomial :=
  match divisor.constant? with
  | some modulus => modScalar p modulus
  | none => mod p (divisor.toPolynomial p.symbol)

/-- The product of operands. That of a number and a polynomial has no error for its degree. -/
def mulOperands : Operand → Operand → Guarded Operand
  | .number a, .number b => .ok (.number (a * b))
  | .number a, .polynomial q =>
      (expect .degreeOverflow (mul (Operand.promote q.symbol a) q)).map .polynomial
  | .polynomial p, .number b => .ok (.polynomial (p.scale b))
  | .polynomial p, .polynomial q => (mul p q).map .polynomial

def modOperands : Operand → Operand → Guarded Operand
  | .number a, .number b =>
      if b = 0 then report .divisionByZero else (floorMod a b).map .number
  | .number a, .polynomial q =>
      (modOperand (Operand.promote q.symbol a) (.polynomial q)).map .polynomial
  | .polynomial p, divisor => (modOperand p divisor).map .polynomial

def powOperands (base power : Operand) : Guarded Operand := do
  let exponent ← unguarded power.exponent
  match base with
  | .number value => .ok (.number (value ^ exponent.val))
  | .polynomial p => (pow p exponent.val).map .polynomial

def value (left right : Operand) : Operator → Guarded Operand
  | .add => .ok (left.add right)
  | .subtract => .ok (left.sub right)
  | .multiply => mulOperands left right
  | .remainder => modOperands left right
  | .power => powOperands left right
  | .negate => .ok right.neg

theorem exponentsFit_of_degree {terms : Terms} (hterms : terms ≠ 0) {exponent : Nat}
    (h : terms.degree + exponent < exponentLimit) : exponentsFit terms.stored exponent = true := by
  rw [exponentsFit, List.all_eq_true]
  intro t ht
  have hdegree := SparsePolynomial.exponent_le_degree hterms ht
  exact decide_eq_true (by omega)

/-- Below the limit on degrees all sums of exponents are below it. -/
theorem agrees_mul (p q : SparsePolynomial) :
    Agrees (mul p q) (p.mul q) fun _ => True := by
  rw [mul]
  split
  · exact agrees_unguarded.mono fun _ _ => trivial
  · rename_i hnonzero
    rw [not_or] at hnonzero
    split
    · rename_i hlimit
      rw [(SparsePolynomial.mul_eq_overflow_iff p q).2 ⟨hnonzero.1, hnonzero.2, hlimit⟩]
      exact agrees_report
    · rename_i hlimit
      have hfit : p.terms.stored.all (fun t => exponentsFit q.terms.stored t.exponent) = true := by
        rw [List.all_eq_true]
        intro t ht
        have hdegree := SparsePolynomial.exponent_le_degree hnonzero.1 ht
        apply exponentsFit_of_degree hnonzero.2
        simp only [SparsePolynomial.degree] at hlimit
        omega
      rw [if_pos hfit]
      exact agrees_unguarded.mono fun _ _ => trivial

theorem agrees_pow {p : SparsePolynomial} (hfree : p.setting.isFree = true) (exponent : Nat) :
    Agrees (pow p exponent) (p.pow exponent) fun _ => True := by
  rw [pow, if_pos hfree, SparsePolynomial.pow, if_pos hfree, SparsePolynomial.exactPow]
  refine agrees_unguarded.bind fun _ _ => ?_
  exact agrees_powerBy agrees_mul _ _ exponent

theorem floorMod_eq {modulus : Rat} (h : modulus ≠ 0) (value : Rat) :
    floorMod value modulus = .ok (ExactAlgebra.floorMod value modulus) :=
  if_neg h

theorem agrees_modScalar (p : SparsePolynomial) (modulus : Rat) :
    Agrees (modScalar p modulus) (p.modScalar modulus) fun _ => True := by
  rw [modScalar]
  by_cases hzero : modulus = 0
  · rw [if_pos hzero, SparsePolynomial.modScalar, if_pos hzero]
    exact agrees_report
  · have hreduced : p.terms.stored.mapM (fun t => floorMod t.coefficient modulus) =
        .ok (p.terms.stored.map fun t => ExactAlgebra.floorMod t.coefficient modulus) := by
      simp only [floorMod_eq hzero]
      exact List.mapM_pure
    rw [if_neg hzero, hreduced]
    exact agrees_unguarded.mono fun _ _ => trivial

/-- Dividing below the limit on exponents stays below it. -/
theorem longDivision_eq {p d : Terms} (hd : d ≠ 0) (hp : p.Below exponentLimit) :
    longDivision p d = .ok (Terms.divMod p d) := by
  fun_induction Terms.divMod p d with
  | case1 p hstop =>
      rw [longDivision, dif_pos (hstop.imp_right fun h => h.resolve_left hd)]
  | case2 p hcontinue rest ih =>
      have hloop : ¬ (p = 0 ∨ p.degree < d.degree) :=
        fun h => hcontinue (h.imp_right Or.inr)
      simp only [not_or, Nat.not_lt] at hcontinue
      obtain ⟨hnonzero, _, hdegree⟩ := hcontinue
      have hlimit := Terms.degree_lt_of_below hp hnonzero
      have hfit : exponentsFit d.stored (p.degree - d.degree) = true := by
        apply exponentsFit_of_degree hd
        omega
      have hrest : (Terms.eliminateLeading p d).Below exponentLimit :=
        (Terms.below_eliminateLeading hdegree).mono (Nat.le_of_lt hlimit)
      rw [longDivision, dif_neg hloop, if_neg (Terms.leading_coefficient_ne_zero hd),
        if_pos hfit, ih hrest]
      rfl

theorem agrees_mod (p d : SparsePolynomial) :
    Agrees (mod p d) (p.mod d) fun _ => True := by
  rw [mod]
  by_cases hzero : d.terms = 0
  · rw [if_pos hzero, SparsePolynomial.mod, SparsePolynomial.divMod, if_pos hzero]
    exact agrees_report
  · rw [if_neg hzero, longDivision_eq hzero p.below]
    exact agrees_unguarded.mono fun _ _ => trivial

theorem agrees_modOperand (p : SparsePolynomial) (divisor : Operand) :
    Agrees (modOperand p divisor) (Operand.modOperand p divisor) fun _ => True := by
  rw [modOperand, Operand.modOperand]
  cases divisor.constant? with
  | some modulus => exact agrees_modScalar p modulus
  | none => exact agrees_mod p _

/-- Operands multiply without faults. -/
theorem agrees_mulOperands (a b : Operand) :
    Agrees (mulOperands a b) (a.mul b) fun _ => True := by
  cases a with
  | number a =>
      cases b with
      | number b => exact agrees_ok trivial
      | polynomial q =>
          have hdegree : (Operand.promote q.symbol a).degree + q.degree < exponentLimit := by
            rw [Operand.promote, SparsePolynomial.degree_constantIn, Nat.zero_add]
            exact q.degree_lt
          obtain ⟨product, hproduct, _⟩ :=
            SparsePolynomial.exists_mul_eq_ok (SparsePolynomial.not_productOverflows_of_lt hdegree)
          have hguarded := (agrees_mul (Operand.promote q.symbol a) q).eq_unguarded
          rw [mulOperands, Operand.mul, hguarded, hproduct]
          exact agrees_ok trivial
  | polynomial p =>
      cases b with
      | number b => exact agrees_ok trivial
      | polynomial q => exact (agrees_mul p q).map fun _ _ => trivial

theorem agrees_modOperands (a b : Operand) :
    Agrees (modOperands a b) (a.mod b) fun _ => True := by
  cases a with
  | number a =>
      cases b with
      | number b =>
          rw [modOperands, Operand.mod]
          split
          · exact agrees_report
          · rename_i hnonzero
            rw [floorMod_eq hnonzero]
            exact agrees_ok trivial
      | polynomial q => exact (agrees_modOperand _ _).map fun _ _ => trivial
  | polynomial p => exact (agrees_modOperand p b).map fun _ _ => trivial

theorem agrees_powOperands {symbol : Char} {a : Operand} (ha : a.IsPlain symbol) (b : Operand) :
    Agrees (powOperands a b) (a.pow b) fun _ => True := by
  rw [powOperands, Operand.pow]
  refine agrees_unguarded.bind fun exponent _ => ?_
  cases a with
  | number value => exact agrees_ok trivial
  | polynomial p =>
      have hfree := SparsePolynomial.isFree_of_setting_eq ha.setting
      exact (agrees_pow hfree exponent.val).map fun _ _ => trivial

/-- The operators have plain values without faults. -/
theorem agrees_value {symbol : Char} {a b : Operand} (ha : a.IsPlain symbol)
    (hb : b.IsPlain symbol) (operator : Operator) :
    Agrees (value a b operator) (operator.value a b) (Operand.IsPlain symbol) := by
  have hguarded : value a b operator = unguarded (operator.value a b) := by
    cases operator with
    | add | subtract | negate => rfl
    | multiply => exact (agrees_mulOperands a b).eq_unguarded
    | remainder => exact (agrees_modOperands a b).eq_unguarded
    | power => exact (agrees_powOperands ha b).eq_unguarded
  exact ⟨hguarded, fun _ h => ha.value hb h⟩

end ExactAlgebra.Guarded
