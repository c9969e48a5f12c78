import ExactAlgebra.Proofs.SparsePolynomial.ModularPower
import ExactAlgebra.SparsePolynomial.Composition
import ExactAlgebra.SparsePolynomial.Printer

/-!
Moduli are configuration and not value. Exchanging the moduli of the operands of an operation, by
others or by none, exchanges those of the result and leaves its terms, its variable and its error as
they are. Which operand lends the moduli is the same for all results of an operation. Only powers
look at moduli.
-/

namespace ExactAlgebra

/-- What a setting has besides its variable. -/
structure Moduli where
  coefficientModulus : Option NonzeroRat
  modulusChain : List PolynomialModulus

def Setting.withModuli (setting : Setting) (moduli : Moduli) : Setting :=
  ⟨setting.symbol, moduli.coefficientModulus, moduli.modulusChain⟩

namespace SparsePolynomial

def withModuli (moduli : Moduli) (p : SparsePolynomial) : SparsePolynomial :=
  { p with setting := p.setting.withModuli moduli }

variable {p q : SparsePolynomial}

/-- Giving a polynomial a modulus for its coefficients exchanges its moduli. -/
theorem exists_withModuli_of_withCoefficientModulus {modulus : Rat} {result : SparsePolynomial}
    (h : p.withCoefficientModulus modulus = .ok result) : ∃ m, result = p.withModuli m := by
  unfold withCoefficientModulus at h
  split at h <;> cases h
  rename_i hnonzero
  exact ⟨⟨some ⟨modulus, hnonzero⟩, p.setting.modulusChain⟩, rfl⟩

/-- Giving a polynomial a polynomial modulus exchanges its moduli. -/
theorem exists_withModuli_of_withPolynomialModulus {modulus result : SparsePolynomial}
    (h : p.withPolynomialModulus modulus = .ok result) : ∃ m, result = p.withModuli m := by
  unfold withPolynomialModulus at h
  split at h <;> cases h
  rename_i hnonzero
  exact ⟨⟨p.setting.coefficientModulus, chainFrom modulus hnonzero⟩, rfl⟩

theorem mul_withModuli (m n : Moduli) (p q : SparsePolynomial) :
    (p.withModuli m).mul (q.withModuli n) = (p.mul q).map (withModuli m) := by
  by_cases h : p.terms = 0 ∨ q.terms = 0 ∨ p.degree + q.degree < exponentLimit
  · have hproduct : p.mul q = .ok _ := dif_pos h
    rw [hproduct]
    exact dif_pos h
  · have hoverflow : p.mul q = .error _ := dif_neg h
    rw [hoverflow]
    exact dif_neg h

theorem divMod_withModuli (m n : Moduli) (p d : SparsePolynomial) :
    (p.withModuli m).divMod (d.withModuli n) =
      (p.divMod d).map (Prod.map (withModuli m) (withModuli m)) := by
  by_cases h : d.terms = 0
  · have hzero : p.divMod d = .error _ := if_pos h
    rw [hzero]
    exact if_pos h
  · have hparts : p.divMod d = .ok _ := if_neg h
    rw [hparts]
    exact if_neg h

theorem divScalar_withModuli (m : Moduli) (p : SparsePolynomial) (divisor : Rat) :
    (p.withModuli m).divScalar divisor = (p.divScalar divisor).map (withModuli m) := by
  unfold divScalar
  split <;> rfl

theorem modScalar_withModuli (m : Moduli) (p : SparsePolynomial) (modulus : Rat) :
    (p.withModuli m).modScalar modulus = (p.modScalar modulus).map (withModuli m) := by
  unfold modScalar
  split <;> rfl

/-- Powers that ignore the moduli keep them. -/
theorem exactPow_withModuli (m : Moduli) (p : SparsePolynomial) (exponent : Nat) :
    (p.withModuli m).exactPow exponent = (p.exactPow exponent).map (withModuli m) := by
  have hdegree : (p.withModuli m).requirePowerDegree exponent =
      (p.requirePowerDegree exponent).map id := by
    rw [Except.map_id]
    rfl
  refine bind_eq_map_bind hdegree fun _ => ?_
  exact powerBy_map (mul_withModuli m m) (constantIn p.setting 1) p exponent

/-- Horner's rule goes on with the moduli of the polynomial that is substituted. -/
theorem hornerCompose_withModuli (m : Moduli) (q value : SparsePolynomial) (exponent : Nat)
    (terms : List Term) :
    hornerCompose (q.withModuli m) (value.withModuli m) exponent terms =
      (hornerCompose q value exponent terms).map (withModuli m) := by
  induction terms generalizing value exponent with
  | nil =>
      rw [hornerCompose, hornerCompose]
      refine bind_eq_map_bind (exactPow_withModuli m q exponent) fun power => ?_
      exact mul_withModuli m m value power
  | cons t rest ih =>
      rw [hornerCompose, hornerCompose]
      refine bind_eq_map_bind (exactPow_withModuli m q _) fun power => ?_
      refine bind_eq_map_bind (mul_withModuli m m value power) fun product => ?_
      exact ih (product.addConstant t.coefficient) t.exponent

theorem mulModulo_withModuli (m n : Moduli) (modulus p q : SparsePolynomial) :
    mulModulo (modulus.withModuli n) (p.withModuli m) (q.withModuli m) =
      (mulModulo modulus p q).map (withModuli m) := by
  rw [mulModulo, mulModulo, mul_withModuli]
  rcases p.mul q with cause | product
  · rfl
  · rfl

theorem powMod_withModuli (m n : Moduli) (base : SparsePolynomial) (exponent : Nat)
    (modulus : SparsePolynomial) :
    (base.withModuli m).powMod exponent (modulus.withModuli n) =
      (base.powMod exponent modulus).map (withModuli m) := by
  have hpower := powerBy_map (mulModulo_withModuli m n modulus) (constantIn base.setting 1)
    (base.remainder modulus) exponent
  by_cases h : modulus.terms = 0
  · have hzero : base.powMod exponent modulus = .error _ := if_pos h
    rw [hzero]
    exact if_pos h
  · rw [powMod, powMod, if_neg h]
    exact (if_neg h).trans (bind_eq_map_bind hpower fun _ => rfl)

/-- What operations on two polynomials have in common when their moduli are exchanged. -/
structure IgnoresModuli (m n : Moduli) (p q : SparsePolynomial) : Prop where
  add : p.withModuli m + q.withModuli n = (p + q).withModuli m
  sub : p.withModuli m - q.withModuli n = (p - q).withModuli m
  neg : -p.withModuli m = (-p).withModuli m
  mul : (p.withModuli m).mul (q.withModuli n) = (p.mul q).map (withModuli m)
  addConstant : ∀ value, (p.withModuli m).addConstant value = (p.addConstant value).withModuli m
  subConstant : ∀ value, (p.withModuli m).subConstant value = (p.subConstant value).withModuli m
  scale : ∀ factor, (p.withModuli m).scale factor = (p.scale factor).withModuli m
  divScalar : ∀ divisor,
    (p.withModuli m).divScalar divisor = (p.divScalar divisor).map (withModuli m)
  modScalar : ∀ modulus,
    (p.withModuli m).modScalar modulus = (p.modScalar modulus).map (withModuli m)
  divMod : (p.withModuli m).divMod (q.withModuli n) =
    (p.divMod q).map (Prod.map (withModuli m) (withModuli m))
  evaluate : ∀ x, (p.withModuli m).evaluate x = p.evaluate x
  compose : (p.withModuli m).compose (q.withModuli n) = (p.compose q).map (withModuli n)
  powMod : ∀ exponent, (p.withModuli m).powMod exponent (q.withModuli n) =
    (p.powMod exponent q).map (withModuli m)
  toString : ToString.toString (p.withModuli m) = ToString.toString p
  beq : (p.withModuli m == q.withModuli n) = (p == q)

theorem ignoresModuli (m n : Moduli) (p q : SparsePolynomial) : IgnoresModuli m n p q where
  add := rfl
  sub := rfl
  neg := rfl
  mul := mul_withModuli m n p q
  addConstant _ := rfl
  subConstant _ := rfl
  scale _ := rfl
  divScalar := divScalar_withModuli m p
  modScalar := modScalar_withModuli m p
  divMod := divMod_withModuli m n p q
  evaluate _ := rfl
  compose :=
    hornerCompose_withModuli n q (constantIn q.setting p.terms.leading.coefficient) p.degree _
  powMod exponent := powMod_withModuli m n p exponent q
  toString := rfl
  beq := rfl

theorem setting_of_hornerCompose {value result : SparsePolynomial} {exponent : Nat}
    {terms : List Term} (h : hornerCompose q value exponent terms = .ok result) :
    result.setting = value.setting := by
  induction terms generalizing value exponent with
  | nil =>
      rw [hornerCompose] at h
      obtain ⟨power, _, hproduct⟩ := eq_ok_of_bind h
      exact (terms_setting_of_mul hproduct).2
  | cons t rest ih =>
      rw [hornerCompose] at h
      obtain ⟨power, _, hnext⟩ := eq_ok_of_bind h
      obtain ⟨product, hproduct, hrest⟩ := eq_ok_of_bind hnext
      exact (ih hrest).trans (terms_setting_of_mul hproduct).2

theorem setting_of_powMod {base modulus result : SparsePolynomial} {exponent : Nat}
    (h : base.powMod exponent modulus = .ok result) : result.setting = base.setting := by
  have hmul : MultipliesAs (M := Unit) (mulModulo modulus)
      (fun a _ => a.setting = base.setting) := by
    intro a b c _ _ ha _ hproduct
    obtain ⟨product, hmul, rfl⟩ := eq_ok_of_map hproduct
    exact (terms_setting_of_mul hmul).2.trans ha
  have hone : (constantIn base.setting 1).setting = base.setting := rfl
  have hbase : (base.remainder modulus).setting = base.setting := rfl
  by_cases hzero : modulus.terms = 0
  · rw [powMod, if_pos hzero] at h
    cases h
  · rw [powMod, if_neg hzero] at h
    obtain ⟨power, hpower, hresult⟩ := eq_ok_of_bind h
    cases hresult
    have hsetting : power.setting = base.setting :=
      hmul.powerBy (x := ()) (y := ()) hone hbase hpower
    exact hsetting

/-- The result has a setting, if there is a result. -/
def HasSetting (setting : Setting) (result : Except Error SparsePolynomial) : Prop :=
  ∀ p, result = .ok p → p.setting = setting

/-- Which operand lends a result its variable and its moduli: the left one, except in a composition,
where it is the polynomial that is substituted. -/
structure LendsSetting (p q : SparsePolynomial) : Prop where
  add : (p + q).setting = p.setting
  sub : (p - q).setting = p.setting
  neg : (-p).setting = p.setting
  mul : HasSetting p.setting (p.mul q)
  addConstant : ∀ value, (p.addConstant value).setting = p.setting
  subConstant : ∀ value, (p.subConstant value).setting = p.setting
  scale : ∀ factor, (p.scale factor).setting = p.setting
  divScalar : ∀ divisor, HasSetting p.setting (p.divScalar divisor)
  modScalar : ∀ modulus, HasSetting p.setting (p.modScalar modulus)
  div : HasSetting p.setting (p.div q)
  mod : HasSetting p.setting (p.mod q)
  compose : HasSetting q.setting (p.compose q)
  powMod : ∀ exponent, HasSetting p.setting (p.powMod exponent q)
  pow : ∀ exponent, HasSetting p.setting (p.pow exponent)

theorem lendsSetting (p q : SparsePolynomial) : LendsSetting p q where
  add := rfl
  sub := rfl
  neg := rfl
  mul _ h := (terms_setting_of_mul h).2
  addConstant _ := rfl
  subConstant _ := rfl
  scale _ := rfl
  divScalar divisor result h := by
    unfold divScalar at h
    split at h <;> cases h
    rfl
  modScalar modulus result h := by
    unfold modScalar at h
    split at h <;> cases h
    rfl
  div result h := by
    unfold div divMod at h
    split at h <;> cases h
    rfl
  mod result h := by
    unfold mod divMod at h
    split at h <;> cases h
    rfl
  compose result h := by
    unfold compose at h
    have hsetting := setting_of_hornerCompose h
    exact hsetting
  powMod _ _ h := setting_of_powMod h
  pow _ _ h := setting_of_pow h

/-- Powers do look at moduli: the first power of three is reduced modulo two. -/
theorem exists_pow_withModuli_ne :
    ∃ (p : SparsePolynomial) (m : Moduli) (exponent : Nat),
      (p.withModuli m).pow exponent ≠ (p.pow exponent).map (withModuli m) := by
  refine ⟨constant 3, ⟨some ⟨2, by decide⟩, []⟩, 1, fun h => ?_⟩
  have hcoefficient := congrArg (Except.map fun power => power.terms.coeff 0) h
  exact absurd hcoefficient (by decide +kernel)

end SparsePolynomial

end ExactAlgebra
