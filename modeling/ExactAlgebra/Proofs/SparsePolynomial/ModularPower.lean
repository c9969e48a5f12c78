import ExactAlgebra.Proofs.Power
import ExactAlgebra.Proofs.SparsePolynomial.Representatives
import ExactAlgebra.Proofs.SparsePolynomial.Ring
import ExactAlgebra.Proofs.Terms.Division
import ExactAlgebra.SparsePolynomial.Power

/-!
Powers with moduli. For integer moduli that can be divided by, every product on the way stands for
a class of polynomials over the integers, and the last product is reduced, so the power is the
reduced polynomial of its class, however the exponent was split up.
-/

namespace ExactAlgebra

open Polynomial

/-- The moduli of a setting are integers. -/
structure Setting.HasModuli (setting : Setting) (moduli : IntegerModuli) : Prop where
  coefficient : setting.coefficientModulus.map Subtype.val =
    moduli.coefficient.map (Int.cast : ℤ → ℚ)
  polynomial : setting.modulusChain.head?.map (fun modulus => modulus.terms.toPolynomial) =
    moduli.polynomial.map (Polynomial.map (Int.castRingHom ℚ))

/-- Dividing by a polynomial with a leading coefficient one or minus one stays in the integers. -/
theorem map_mod_map {M : ℤ[X]} (h : M.leadingCoeff = 1 ∨ M.leadingCoeff = -1) (f : ℤ[X]) :
    f.map (Int.castRingHom ℚ) % M.map (Int.castRingHom ℚ) =
      (f %ₘ monicOf M).map (Int.castRingHom ℚ) := by
  have hlead : (M.map (Int.castRingHom ℚ)).leadingCoeff = M.leadingCoeff := by
    rw [leadingCoeff_map_of_injective Int.cast_injective]
    rfl
  have hinverse : (M.leadingCoeff : ℚ)⁻¹ = M.leadingCoeff := by
    rcases h with h | h <;> rw [h] <;> norm_num
  have hmonic : (monicOf M).map (Int.castRingHom ℚ) =
      M.map (Int.castRingHom ℚ) * C (M.leadingCoeff : ℚ) := by
    rw [monicOf, Polynomial.map_mul, map_C]
    rfl
  rw [mod_def, hlead, hinverse, map_modByMonic _ (monic_monicOf h), hmonic]

namespace SparsePolynomial

variable {setting : Setting} {moduli : IntegerModuli} {p q : SparsePolynomial} {f g : ℤ[X]}

/-- The terms have integer coefficients, those of the polynomial. -/
def HasInteger (p : SparsePolynomial) (f : ℤ[X]) : Prop :=
  p.terms.toPolynomial = f.map (Int.castRingHom ℚ)

theorem hasInteger_one (setting : Setting) : HasInteger (constantIn setting 1) 1 := by
  rw [HasInteger, toPolynomial_constantIn, C_1, Polynomial.map_one]

theorem HasInteger.reducePolynomial (hp : HasInteger p f) (hmoduli : setting.HasModuli moduli) :
    HasInteger (reducePolynomial setting p) (moduli.remainder f) := by
  have hpolynomial := hmoduli.polynomial
  unfold SparsePolynomial.reducePolynomial
  cases hchain : setting.modulusChain with
  | nil =>
      rw [hchain, List.head?_nil, Option.map_none, eq_comm, Option.map_eq_none_iff] at hpolynomial
      rwa [IntegerModuli.remainder_of_none hpolynomial]
  | cons modulus rest =>
      rw [hchain, List.head?_cons, Option.map_some, eq_comm, Option.map_eq_some_iff] at hpolynomial
      obtain ⟨M, hM, hmap⟩ := hpolynomial
      rw [IntegerModuli.remainder_of_some hM, HasInteger, ← map_mod_map (moduli.leadingCoeff M hM),
        hmap, ← hp]
      exact Terms.toPolynomial_divMod_snd p.terms modulus.terms

theorem HasInteger.reduceCoefficients (hp : HasInteger p f) (hmoduli : setting.HasModuli moduli) :
    HasInteger (reduceCoefficients setting p) (moduli.floorCoefficients f) := by
  have hcoefficient := hmoduli.coefficient
  unfold SparsePolynomial.reduceCoefficients
  cases hmodulus : setting.coefficientModulus with
  | none =>
      rw [hmodulus, Option.map_none, eq_comm, Option.map_eq_none_iff] at hcoefficient
      rwa [IntegerModuli.floorCoefficients_eq_self hcoefficient]
  | some modulus =>
      rw [hmodulus, Option.map_some, eq_comm, Option.map_eq_some_iff] at hcoefficient
      obtain ⟨k, hk, hcast⟩ := hcoefficient
      ext exponent
      have hcoeff : p.terms.coeff exponent = f.coeff exponent := by
        rw [← Terms.coeff_toPolynomial, hp, coeff_map]
        rfl
      rw [Terms.coeff_toPolynomial, coeff_map, IntegerModuli.coeff_floorCoefficients hk]
      refine (Terms.coeff_mapCoefficients p.terms (f := fun c => floorMod c modulus.val)
        (zero_floorMod _) exponent).trans ?_
      rw [hcoeff, ← hcast, floorMod_intCast]
      rfl

/-- Reducing by the moduli of the setting is reducing by the integer moduli. -/
theorem HasInteger.reduce (hp : HasInteger p f) (hmoduli : setting.HasModuli moduli) :
    HasInteger (reduce setting p) (moduli.reduce f) :=
  (hp.reducePolynomial hmoduli).reduceCoefficients hmoduli

theorem HasInteger.mulReduced {product : SparsePolynomial} (hp : HasInteger p f)
    (hq : HasInteger q g) (hmoduli : setting.HasModuli moduli)
    (h : mulReduced setting p q = .ok product) : HasInteger product (moduli.reduce (f * g)) := by
  rw [SparsePolynomial.mulReduced] at h
  obtain ⟨exact, hmul, rfl⟩ := eq_ok_of_map h
  apply HasInteger.reduce _ hmoduli
  rw [HasInteger, (terms_setting_of_mul hmul).1, Terms.toPolynomial_mul, hp, hq,
    Polynomial.map_mul]

/-- The terms have integer coefficients, and they lie in the class of a polynomial. -/
def Represents (moduli : IntegerModuli) (p : SparsePolynomial) (f : ℤ[X]) : Prop :=
  ∃ g, HasInteger p g ∧ g - f ∈ moduli.ideal

theorem HasInteger.represents (hp : HasInteger p f) : Represents moduli p f :=
  ⟨f, hp, by rw [sub_self]; exact zero_mem _⟩

/-- A product in the quotient ring is reduced to the representative of the product. -/
theorem Represents.mulReduced {product : SparsePolynomial} (hp : Represents moduli p f)
    (hq : Represents moduli q g) (hmoduli : setting.HasModuli moduli)
    (h : mulReduced setting p q = .ok product) : HasInteger product (moduli.reduce (f * g)) := by
  obtain ⟨f', hf', hf⟩ := hp
  obtain ⟨g', hg', hg⟩ := hq
  rw [← IntegerModuli.reduce_congr (Ideal.mul_sub_mul_mem _ hf hg)]
  exact hf'.mulReduced hg' hmoduli h

theorem multipliesAs_mulReduced (hmoduli : setting.HasModuli moduli) :
    MultipliesAs (mulReduced setting) (Represents moduli) := by
  intro a b c x y ha hb h
  exact ⟨_, ha.mulReduced hb hmoduli h, IntegerModuli.reduce_sub_mem _⟩

/-- Without moduli nothing is reduced. -/
theorem mulReduced_of_isFree (h : setting.isFree = true) : mulReduced setting = mul := by
  rw [Setting.isFree, Bool.and_eq_true, List.isEmpty_iff, Option.isNone_iff_eq_none] at h
  funext a b
  rw [mulReduced]
  cases a.mul b with
  | error cause => rfl
  | ok product => simp [Except.map, reduce, reducePolynomial, reduceCoefficients, h]

theorem pow_eq_reducedPow (p : SparsePolynomial) (exponent : Nat) :
    p.pow exponent = p.reducedPow exponent := by
  rw [pow]
  split
  · rename_i hfree
    have hproduct := mulReduced_of_isFree hfree
    rw [Setting.isFree, Bool.and_eq_true, List.isEmpty_iff, Option.isNone_iff_eq_none] at hfree
    have hbase : reduce p.setting p = p := by
      simp [reduce, reducePolynomial, reduceCoefficients, hfree]
    rw [exactPow, reducedPow, requireReducedDegree, if_pos hfree.1, hproduct, hbase]
  · rfl

/-- A power that exists was computed by squaring. -/
theorem powerBy_of_pow {power : SparsePolynomial} {exponent : Nat}
    (h : p.pow exponent = .ok power) :
    powerBy (mulReduced p.setting) (constantIn p.setting 1) (reduce p.setting p) exponent =
      .ok power := by
  rw [pow_eq_reducedPow, reducedPow] at h
  obtain ⟨_, _, hpower⟩ := eq_ok_of_bind h
  exact hpower

/-- The power is the representative of the exact power. -/
theorem hasInteger_of_pow {power : SparsePolynomial} {exponent : Nat} (hp : HasInteger p f)
    (hmoduli : p.setting.HasModuli moduli) (hexponent : exponent ≠ 0)
    (h : p.pow exponent = .ok power) : HasInteger power (moduli.reduce (f ^ exponent)) := by
  have hbase : Represents moduli (reduce p.setting p) f :=
    ⟨_, hp.reduce hmoduli, IntegerModuli.reduce_sub_mem f⟩
  obtain ⟨a, b, z, w, ha, hb, hproduct, hpower⟩ :=
    (multipliesAs_mulReduced hmoduli).exists_mul_of_powerBy (hasInteger_one p.setting).represents
      hbase hexponent (powerBy_of_pow h)
  rw [one_mul] at hproduct
  rw [← hproduct]
  exact ha.mulReduced hb hmoduli hpower

@[simp] theorem setting_reduce (setting : Setting) (p : SparsePolynomial) :
    (reduce setting p).setting = p.setting := by
  unfold reduce reduceCoefficients reducePolynomial
  split <;> split <;> rfl

/-- A product is reduced in the setting of its left factor. -/
theorem setting_of_mulReduced {product : SparsePolynomial}
    (h : mulReduced setting p q = .ok product) : product.setting = p.setting := by
  rw [mulReduced] at h
  obtain ⟨exact, hmul, rfl⟩ := eq_ok_of_map h
  rw [setting_reduce, (terms_setting_of_mul hmul).2]

theorem setting_of_pow {power : SparsePolynomial} {exponent : Nat}
    (h : p.pow exponent = .ok power) : power.setting = p.setting := by
  have hmul : MultipliesAs (M := Unit) (mulReduced p.setting)
      (fun a _ => a.setting = p.setting) :=
    fun _ _ _ _ _ ha _ h => (setting_of_mulReduced h).trans ha
  have hone : (constantIn p.setting 1).setting = p.setting := rfl
  exact hmul.powerBy (x := ()) (y := ()) hone (setting_reduce _ p) (powerBy_of_pow h)

theorem degree_reduceCoefficients_le (setting : Setting) (p : SparsePolynomial) :
    (reduceCoefficients setting p).degree ≤ p.degree := by
  unfold reduceCoefficients
  split
  · exact Nat.le_refl _
  · exact Terms.degree_mapCoefficients_le _ p.terms

/-- Without a polynomial modulus degrees add up, as they do without moduli. -/
theorem degree_reduce_le (hchain : setting.modulusChain = []) (p : SparsePolynomial) :
    (reduce setting p).degree ≤ p.degree := by
  have hsame : reducePolynomial setting p = p := by
    rw [reducePolynomial, hchain]
  rw [reduce, hsame]
  exact degree_reduceCoefficients_le setting p

/-- A polynomial modulus of at most half of the limit keeps the degrees below that half. -/
theorem degree_reduce_lt {modulus : PolynomialModulus} {rest : List PolynomialModulus}
    (hchain : setting.modulusChain = modulus :: rest) (hdegree : modulus.terms.degree ≤ 2 ^ 31)
    (p : SparsePolynomial) : (reduce setting p).degree < 2 ^ 31 := by
  have hremainder : (p.terms.divMod modulus.terms).2.degree < 2 ^ 31 := by
    rcases Terms.divMod_snd_eq_zero_or_degree_lt (p := p.terms) modulus.nonzero with hzero | hlt
    · rw [hzero, Terms.degree_zero]
      decide
    · omega
  have hreduced : (reducePolynomial setting p).degree < 2 ^ 31 := by
    rw [reducePolynomial, hchain]
    exact hremainder
  exact Nat.lt_of_le_of_lt (degree_reduceCoefficients_le setting _) hreduced

theorem exists_mulReduced (h : p.degree + q.degree < exponentLimit) :
    ∃ exact, mulReduced setting p q = .ok (reduce setting exact) ∧
      exact.degree ≤ p.degree + q.degree := by
  obtain ⟨exact, hmul, hterms, _⟩ := exists_mul_eq_ok (not_productOverflows_of_lt h)
  refine ⟨exact, ?_, ?_⟩
  · rw [mulReduced, hmul]
    rfl
  · rw [degree, hterms]
    exact Terms.degree_mul_le p.terms q.terms

/-- With a polynomial modulus of at most half of the limit on exponents every power exists. -/
theorem exists_pow_of_modulus {modulus : PolynomialModulus} {rest : List PolynomialModulus}
    (hchain : p.setting.modulusChain = modulus :: rest)
    (hdegree : modulus.terms.degree ≤ 2 ^ 31) (exponent : Nat) :
    ∃ power, p.pow exponent = .ok power := by
  have hmul : ∀ a b : SparsePolynomial, a.degree < 2 ^ 31 → b.degree < 2 ^ 31 →
      ∃ c, mulReduced p.setting a b = .ok c ∧ c.degree < 2 ^ 31 := by
    intro a b ha hb
    have hsum : a.degree + b.degree < exponentLimit := by
      rw [exponentLimit]
      omega
    obtain ⟨exact, hproduct, _⟩ := exists_mulReduced hsum
    exact ⟨_, hproduct, degree_reduce_lt hchain hdegree exact⟩
  have hone : (constantIn p.setting 1).degree < 2 ^ 31 := by
    rw [degree_constantIn]
    decide
  obtain ⟨power, hpower⟩ :=
    exists_powerBy_of_closed hmul hone (degree_reduce_lt hchain hdegree p) exponent
  refine ⟨power, ?_⟩
  have hlong : p.setting.modulusChain ≠ [] := by
    rw [hchain]
    exact List.cons_ne_nil _ _
  rw [pow_eq_reducedPow, reducedPow, requireReducedDegree, if_neg hlong]
  exact hpower

/-- Without a polynomial modulus the powers exist whose degree is below the limit. -/
theorem exists_pow_of_degree {exponent : Nat} (hchain : p.setting.modulusChain = [])
    (hdegree : p.degree * exponent < exponentLimit) : ∃ power, p.pow exponent = .ok power := by
  have hmul : ∀ a b : SparsePolynomial, a.degree + b.degree < exponentLimit →
      ∃ c, mulReduced p.setting a b = .ok c ∧ c.degree ≤ a.degree + b.degree := by
    intro a b hsum
    obtain ⟨exact, hproduct, hexact⟩ := exists_mulReduced hsum
    exact ⟨_, hproduct, (degree_reduce_le hchain exact).trans hexact⟩
  have hsize : (constantIn p.setting 1).degree + (reduce p.setting p).degree * exponent <
      exponentLimit := by
    rw [degree_constantIn, Nat.zero_add]
    exact Nat.lt_of_le_of_lt (Nat.mul_le_mul_right _ (degree_reduce_le hchain p)) hdegree
  obtain ⟨power, hpower⟩ := exists_powerBy_of_size hmul hsize
  refine ⟨power, ?_⟩
  rw [pow_eq_reducedPow, reducedPow, requireReducedDegree, if_pos hchain, requirePowerDegree,
    if_pos hdegree]
  exact hpower

theorem pow_eq_overflow_iff {exponent : Nat} (hchain : p.setting.modulusChain = []) :
    p.pow exponent = .error (.overflow .polynomialDegree) ↔
      exponentLimit ≤ p.degree * exponent := by
  constructor
  · intro hoverflow
    by_contra hdegree
    obtain ⟨power, hpower⟩ := exists_pow_of_degree hchain (Nat.lt_of_not_le hdegree)
    rw [hpower] at hoverflow
    cases hoverflow
  · intro hdegree
    rw [pow_eq_reducedPow, reducedPow, requireReducedDegree, if_pos hchain, requirePowerDegree,
      if_neg (Nat.not_lt.2 hdegree)]
    rfl

/-- The only failure of a power is an overflow of a degree. -/
theorem eq_overflow_of_pow {exponent : Nat} {cause : Error} (h : p.pow exponent = .error cause) :
    cause = .overflow .polynomialDegree := by
  rw [pow_eq_reducedPow] at h
  rcases eq_error_of_bind h with hdegree | ⟨_, _, hpower⟩
  · rw [requireReducedDegree, requirePowerDegree] at hdegree
    split at hdegree
    · split at hdegree <;> cases hdegree
      rfl
    · cases hdegree
  · obtain ⟨a, b, -, hproduct⟩ := exists_mul_eq_error_of_powerBy hpower
    exact (mul_eq_error_iff.1 (eq_error_of_map hproduct)).2

/-- The polynomial modulus of the setting is that of the integer moduli. -/
theorem modulusChain_eq_nil_iff (hmoduli : setting.HasModuli moduli) :
    setting.modulusChain = [] ↔ moduli.polynomial = none := by
  rw [← List.head?_eq_none_iff, ← Option.map_eq_none_iff, hmoduli.polynomial,
    Option.map_eq_none_iff]

theorem exists_modulus_of_mem (hmoduli : setting.HasModuli moduli) {M : ℤ[X]}
    (hM : M ∈ moduli.polynomial) :
    ∃ modulus rest, setting.modulusChain = modulus :: rest ∧
      modulus.terms.degree = M.natDegree := by
  have hpolynomial := hmoduli.polynomial
  rw [Option.mem_def.1 hM, Option.map_some, Option.map_eq_some_iff] at hpolynomial
  obtain ⟨modulus, hhead, hmap⟩ := hpolynomial
  obtain ⟨rest, hchain⟩ := List.head?_eq_some_iff.1 hhead
  refine ⟨modulus, rest, hchain, ?_⟩
  rw [← Terms.natDegree_toPolynomial, hmap, natDegree_map_eq_of_injective Int.cast_injective]

/-- The power of a polynomial with integer coefficients, under integer moduli that can be divided
by, is the exact power reduced once at the end: the one reduced polynomial in its class modulo the
ideal of the moduli. It exists whenever there is a polynomial modulus of at most half the limit on
exponents; without one it exists exactly when the degree of the exact power is below the limit. -/
theorem pow_eq_reduced_power (hp : HasInteger p f) (hmoduli : p.setting.HasModuli moduli)
    {exponent : Nat} (hexponent : 1 ≤ exponent) :
    (∀ power, p.pow exponent = .ok power →
      power.setting = p.setting ∧ HasInteger power (moduli.reduce (f ^ exponent))) ∧
    (moduli.IsReduced (moduli.reduce (f ^ exponent)) ∧
      moduli.reduce (f ^ exponent) - f ^ exponent ∈ moduli.ideal ∧
      ∀ R, moduli.IsReduced R → R - f ^ exponent ∈ moduli.ideal →
        R = moduli.reduce (f ^ exponent)) ∧
    (∀ M ∈ moduli.polynomial, M.natDegree ≤ 2 ^ 31 → ∃ power, p.pow exponent = .ok power) ∧
    (moduli.polynomial = none →
      (p.pow exponent = .error (.overflow .polynomialDegree) ↔
        2 ^ 32 - 1 < p.degree * exponent) ∧
      (p.degree * exponent ≤ 2 ^ 32 - 1 → ∃ power, p.pow exponent = .ok power)) := by
  refine ⟨?_, ⟨IntegerModuli.isReduced_reduce _, IntegerModuli.reduce_sub_mem _, ?_⟩, ?_, ?_⟩
  · intro power hpower
    exact ⟨setting_of_pow hpower,
      hasInteger_of_pow hp hmoduli (Nat.one_le_iff_ne_zero.1 hexponent) hpower⟩
  · intro R hR hmem
    exact (IntegerModuli.reduce_eq_of_isReduced hR hmem).symm
  · intro M hM hdegree
    obtain ⟨modulus, rest, hchain, hsame⟩ := exists_modulus_of_mem hmoduli hM
    exact exists_pow_of_modulus hchain (hsame ▸ hdegree) exponent
  · intro hnone
    have hchain := (modulusChain_eq_nil_iff hmoduli).2 hnone
    refine ⟨pow_eq_overflow_iff hchain, ?_⟩
    intro hdegree
    exact exists_pow_of_degree hchain (Nat.lt_succ_of_le hdegree)

noncomputable def gaussianModuli : IntegerModuli where
  coefficient := some (-7)
  polynomial := some (X ^ 2 + 1)
  coefficient_ne_zero := by
    rintro k ⟨⟩
    decide
  leadingCoeff := by
    rintro M ⟨⟩
    left
    exact leadingCoeff_X_pow_add_C (by decide)

def gaussianSetting : Setting :=
  ⟨'x', some ⟨-7, by decide⟩,
    [⟨⟨[⟨1, 2⟩, ⟨1, 0⟩], by decide, by decide⟩, 'x', none, by simp [Terms.Below, exponentLimit],
      by decide⟩]⟩

theorem hasModuli_gaussian : gaussianSetting.HasModuli gaussianModuli where
  coefficient := by
    change some (-7 : ℚ) = some ((-7 : ℤ) : ℚ)
    norm_num
  polynomial := by
    change some (polynomialOf [⟨1, 2⟩, ⟨1, 0⟩]) = some ((X ^ 2 + 1 : ℤ[X]).map _)
    simp [polynomialOf, X_pow_eq_monomial]

/-- The powers of `x` exist modulo `-7` and `x^2 + 1`. -/
theorem pow_gaussian :
    ∃ power, (termIn gaussianSetting 1 oneExponent).pow 5 = .ok power ∧
      HasInteger power (gaussianModuli.reduce (X ^ 5)) := by
  have hvariable : HasInteger (termIn gaussianSetting 1 oneExponent) X := by
    rw [HasInteger, map_X]
    exact (Terms.toPolynomial_single ⟨1, 1⟩).trans (monomial_one_one_eq_X (R := ℚ))
  obtain ⟨hpower, _, hexists, _⟩ :=
    pow_eq_reduced_power hvariable hasModuli_gaussian (show 1 ≤ 5 by decide)
  obtain ⟨power, hpow⟩ := hexists _ rfl (by
    rw [show (X ^ 2 + 1 : ℤ[X]) = X ^ 2 + C 1 by rw [C_1], natDegree_X_pow_add_C]
    decide)
  exact ⟨power, hpow, (hpower power hpow).2⟩

end SparsePolynomial

end ExactAlgebra
