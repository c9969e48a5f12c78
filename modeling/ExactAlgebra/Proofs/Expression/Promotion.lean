import ExactAlgebra.Proofs.Expression.Operand
import ExactAlgebra.Proofs.Safety.Arithmetic

/-!
Numbers as a fast path. An operation gives the same outcome when a number among its operands is
replaced by the constant polynomial in the variable of the other operand: the same error, or results
that are equal as polynomials. Three laws of an operation are enough for that, one for each place
where a number can stand.
-/

namespace ExactAlgebra

open Polynomial

namespace Operand

variable {symbol : Char} {a b : Operand} {f : ℚ[X]}

/-- Operands that represent the same polynomial become the same polynomial. -/
theorem Represents.toPolynomial_eq (ha : Represents symbol a f) (hb : Represents symbol b f) :
    a.toPolynomial symbol = b.toPolynomial symbol :=
  SparsePolynomial.eq_of_toPolynomial_eq (ha.terms.trans hb.terms.symm)
    (ha.setting.trans hb.setting.symm)

/-- A number represents what the constant polynomial represents. -/
theorem represents_promote (symbol : Char) (value : Rat) :
    Represents symbol (.polynomial (promote symbol value)) (C value) :=
  ⟨(represents_number symbol value).terms, rfl⟩

@[simp] theorem constant?_promote (symbol : Char) (value : Rat) :
    (Operand.polynomial (promote symbol value)).constant? = some value := by
  have hdegree : (promote symbol value).degree = 0 := SparsePolynomial.degree_constantIn _ _
  have hstored : (promote symbol value).coefficient? 0 = some value := by
    change (Terms.single ⟨value, 0⟩).get? 0 = some value
    by_cases hzero : value = 0
    · simp [Terms.single, Terms.get?, Terms.stored, hzero]
    · simp [Terms.single, Terms.get?, Terms.stored, hzero]
  exact (if_pos hdegree).trans hstored

/-- The operand with a number promoted to a constant polynomial, if that is chosen. -/
def replaced (symbol : Char) (choose : Bool) : Operand → Operand
  | .number value => if choose then .polynomial (promote symbol value) else .number value
  | .polynomial p => .polynomial p

/-- The variable in which two operands meet: that of a polynomial among them, and any variable for
two numbers. -/
def meetingSymbol (fallback : Char) : Operand → Operand → Char
  | .polynomial p, _ => p.symbol
  | .number _, .polynomial q => q.symbol
  | .number _, .number _ => fallback

/-- The product where it has no error for its degree: it stops when the degree overflows. -/
def times : Operand → Operand → Guarded Operand
  | .number a, .number b => .ok (.number (a * b))
  | .number a, .polynomial q =>
      (Guarded.expect .degreeOverflow (Guarded.unguarded ((promote q.symbol a).mul q))).map
        .polynomial
  | .polynomial p, .number b => .ok (.polynomial (p.scale b))
  | .polynomial p, .polynomial q =>
      (Guarded.expect .degreeOverflow (Guarded.unguarded (p.mul q))).map .polynomial

/-- What an operation does with a number is what it does with the constant polynomial, in each place
where a number can stand. -/
structure PromotesNumbers {ε : Type} (operation : Operand → Operand → Except ε Operand) : Prop where
  right : ∀ p b, operation (.polynomial p) (.polynomial (promote p.symbol b)) =
    operation (.polynomial p) (.number b)
  left : ∀ a q,
    (operation (.polynomial (promote q.symbol a)) (.polynomial q)).map (toPolynomial q.symbol) =
      (operation (.number a) (.polynomial q)).map (toPolynomial q.symbol)
  numbers : ∀ symbol a b,
    (operation (.polynomial (promote symbol a)) (.number b)).map (toPolynomial symbol) =
      (operation (.number a) (.number b)).map (toPolynomial symbol)

/-- Any of the numbers may be promoted. -/
theorem PromotesNumbers.map_replaced {ε : Type} {operation : Operand → Operand → Except ε Operand}
    (h : PromotesNumbers operation) (fallback : Char) (chooseLeft chooseRight : Bool)
    (a b : Operand) :
    (operation (a.replaced (meetingSymbol fallback a b) chooseLeft)
      (b.replaced (meetingSymbol fallback a b) chooseRight)).map
        (toPolynomial (meetingSymbol fallback a b)) =
      (operation a b).map (toPolynomial (meetingSymbol fallback a b)) := by
  cases a with
  | number a =>
      cases b with
      | number b =>
          have hboth := (congrArg (Except.map (toPolynomial fallback))
            (h.right (promote fallback a) b)).trans (h.numbers fallback a b)
          rcases chooseLeft with _ | _ <;> rcases chooseRight with _ | _
          · rfl
          · exact (h.left a (promote fallback b)).symm.trans hboth
          · exact h.numbers fallback a b
          · exact hboth
      | polynomial q =>
          rcases chooseLeft with _ | _
          · rfl
          · exact h.left a q
  | polynomial p =>
      cases b with
      | number b =>
          rcases chooseRight with _ | _
          · rfl
          · exact congrArg _ (h.right p b)
      | polynomial q => rfl

section Operations

variable (value other : Rat) (p q : SparsePolynomial)

theorem add_promote : p + promote symbol value = p.addConstant value := by
  refine SparsePolynomial.eq_of_toPolynomial_eq ?_ rfl
  simp [promote, SparsePolynomial.addConstant, SparsePolynomial.addTerm,
    SparsePolynomial.withTerms, zeroExponent]

theorem sub_promote : p - promote symbol value = p.subConstant value := by
  refine SparsePolynomial.eq_of_toPolynomial_eq ?_ rfl
  simp [promote, SparsePolynomial.subConstant, SparsePolynomial.addConstant,
    SparsePolynomial.addTerm, SparsePolynomial.withTerms, zeroExponent, sub_eq_add_neg]

/-- A constant factor scales the polynomial, and never lets the degree overflow. -/
theorem mul_promote : p.mul (promote symbol value) = .ok (p.scale value) := by
  have hlt : p.degree + (promote symbol value).degree < exponentLimit := by
    rw [promote, SparsePolynomial.degree_constantIn]
    exact p.degree_lt
  obtain ⟨product, hproduct, hterms, hsetting, _⟩ := SparsePolynomial.exists_mul_toPolynomial hlt
  rw [hproduct]
  refine congrArg Except.ok (SparsePolynomial.eq_of_toPolynomial_eq ?_ hsetting)
  rw [hterms, promote, SparsePolynomial.toPolynomial_constantIn]
  exact (Terms.toPolynomial_scale p.terms value).symm

theorem scale_promote :
    (promote symbol value).scale other = promote symbol (value * other) := by
  refine SparsePolynomial.eq_of_toPolynomial_eq ?_ rfl
  simp [promote, SparsePolynomial.scale, SparsePolynomial.mapCoefficients,
    SparsePolynomial.withTerms, Terms.toPolynomial_scale]

/-- A coefficient-wise function that keeps zero acts on a constant as on the number. -/
theorem mapCoefficients_promote {g : Rat → Rat} (hg : g 0 = 0) :
    (promote symbol value).mapCoefficients g = promote symbol (g value) := by
  refine SparsePolynomial.eq_of_toPolynomial_eq (congrArg Terms.toPolynomial ?_) rfl
  ext exponent
  change ((Terms.single ⟨value, 0⟩).mapCoefficients g).coeff exponent =
    (Terms.single ⟨g value, 0⟩).coeff exponent
  rw [Terms.coeff_mapCoefficients _ hg, Terms.coeff_single, Terms.coeff_single]
  split
  · rfl
  · exact hg

theorem exponent_promote :
    (Operand.polynomial (promote symbol value)).exponent = (Operand.number value).exponent := by
  rw [exponent, constant?_promote]
  rfl

theorem modOperand_promote :
    modOperand p (.polynomial (promote symbol value)) = modOperand p (.number value) := by
  rw [modOperand, constant?_promote]
  rfl

/-- The power of a constant is the constant of the power. -/
theorem pow_promote (exponent : Exponent) :
    (promote symbol value).pow exponent.val = .ok (promote symbol (value ^ exponent.val)) := by
  have hlt : (promote symbol value).degree * exponent.val < exponentLimit := by
    rw [promote, SparsePolynomial.degree_constantIn, Nat.zero_mul]
    decide
  obtain ⟨power, hpower, hsetting, hterms⟩ := SparsePolynomial.exists_pow rfl hlt
  rw [hpower]
  refine congrArg Except.ok (SparsePolynomial.eq_of_toPolynomial_eq ?_ hsetting)
  rw [hterms]
  simp [promote]

end Operations

theorem promotesNumbers_add : PromotesNumbers (ε := Error) fun a b => .ok (a.add b) where
  right p b := congrArg (Except.ok ∘ Operand.polynomial) (add_promote b p)
  left _ _ := rfl
  numbers symbol a b := by
    have hsum := ((represents_promote symbol a).add (represents_number symbol b)).toPolynomial_eq
      ((represents_number symbol a).add (represents_number symbol b))
    exact congrArg Except.ok hsum

theorem promotesNumbers_sub : PromotesNumbers (ε := Error) fun a b => .ok (a.sub b) where
  right p b := congrArg (Except.ok ∘ Operand.polynomial) (sub_promote b p)
  left _ _ := rfl
  numbers symbol a b := by
    have hdifference :=
      ((represents_promote symbol a).sub (represents_number symbol b)).toPolynomial_eq
        ((represents_number symbol a).sub (represents_number symbol b))
    exact congrArg Except.ok hdifference

theorem promotesNumbers_mul : PromotesNumbers mul where
  right p b := by
    change (p.mul (promote p.symbol b)).map _ = _
    rw [mul_promote]
    rfl
  left _ _ := rfl
  numbers symbol a b := congrArg Except.ok (scale_promote a b)

theorem promotesNumbers_times : PromotesNumbers times where
  right p b := by
    change (Guarded.expect _ (Guarded.unguarded (p.mul (promote p.symbol b)))).map _ = _
    rw [mul_promote]
    rfl
  left _ _ := rfl
  numbers symbol a b := congrArg Except.ok (scale_promote a b)

theorem promotesNumbers_mod : PromotesNumbers mod where
  right p b := congrArg (Except.map Operand.polynomial) (modOperand_promote b p)
  left _ _ := rfl
  numbers symbol a b := by
    change (((promote symbol a).modScalar b).map _).map _ =
      (if b = 0 then _ else _ : Except Error Operand).map _
    rw [SparsePolynomial.modScalar, mapCoefficients_promote a (zero_floorMod b)]
    split <;> rfl

/-- A promoted base has the promoted power, whatever the exponent is. -/
theorem map_pow_promote (symbol : Char) (value : Rat) (power : Operand) :
    ((Operand.polynomial (promote symbol value)).pow power).map (toPolynomial symbol) =
      ((Operand.number value).pow power).map (toPolynomial symbol) := by
  unfold pow
  rcases power.exponent with cause | exponent
  · rfl
  · change (((promote symbol value).pow exponent.val).map _).map _ = _
    rw [pow_promote]
    rfl

theorem promotesNumbers_pow : PromotesNumbers pow where
  right p b := by
    unfold pow
    rw [exponent_promote]
  left a q := map_pow_promote q.symbol a (.polynomial q)
  numbers symbol a b := map_pow_promote symbol a (.number b)

theorem neg_replaced (symbol : Char) (choose : Bool) (a : Operand) :
    (a.replaced symbol choose).neg.toPolynomial symbol = a.neg.toPolynomial symbol := by
  cases a with
  | number value =>
      rcases choose with _ | _
      · rfl
      · exact (represents_promote symbol value).neg.toPolynomial_eq
          (represents_number symbol value).neg
  | polynomial p => rfl

/-- Numbers are a fast path for constant polynomials. In every operation any of the numbers among
the operands may be replaced by the constant polynomial without moduli, in the variable of the other
operand or in any one variable for two numbers. The errors stay the same, as does the stop of a
product where its degree overflows, and the results are the same polynomials in that variable. -/
theorem operations_of_replaced (fallback : Char) (chooseLeft chooseRight : Bool) (a b : Operand) :
    let symbol := meetingSymbol fallback a b
    let left := a.replaced symbol chooseLeft
    let right := b.replaced symbol chooseRight
    (left.add right).toPolynomial symbol = (a.add b).toPolynomial symbol ∧
      (left.sub right).toPolynomial symbol = (a.sub b).toPolynomial symbol ∧
      (left.times right).map (toPolynomial symbol) = (a.times b).map (toPolynomial symbol) ∧
      (left.mul right).map (toPolynomial symbol) = (a.mul b).map (toPolynomial symbol) ∧
      (left.mod right).map (toPolynomial symbol) = (a.mod b).map (toPolynomial symbol) ∧
      (left.pow right).map (toPolynomial symbol) = (a.pow b).map (toPolynomial symbol) ∧
      (a.replaced fallback chooseLeft).neg.toPolynomial fallback = a.neg.toPolynomial fallback := by
  intro symbol left right
  have hadd := promotesNumbers_add.map_replaced fallback chooseLeft chooseRight a b
  have hsub := promotesNumbers_sub.map_replaced fallback chooseLeft chooseRight a b
  exact ⟨Except.ok.inj hadd, Except.ok.inj hsub,
    promotesNumbers_times.map_replaced fallback chooseLeft chooseRight a b,
    promotesNumbers_mul.map_replaced fallback chooseLeft chooseRight a b,
    promotesNumbers_mod.map_replaced fallback chooseLeft chooseRight a b,
    promotesNumbers_pow.map_replaced fallback chooseLeft chooseRight a b,
    neg_replaced fallback chooseLeft a⟩

end Operand

end ExactAlgebra
