import ExactAlgebra.Proofs.SparsePolynomial.Moduli

/-!
Powers modulo a polynomial. Taking remainders after each product keeps the residue of the exact
power, and the remainder that is taken at the end is the remainder of the exact power. For a
positive exponent the last product was reduced already, so the power is the same as that of the
polynomial which is configured with the modulus and reduces its powers by itself, down to the degree
that overflows.
-/

namespace ExactAlgebra.SparsePolynomial

open Polynomial

variable {base modulus : SparsePolynomial} {exponent : Nat}

theorem toPolynomial_remainder (p modulus : SparsePolynomial) :
    (p.remainder modulus).terms.toPolynomial =
      p.terms.toPolynomial % modulus.terms.toPolynomial :=
  Terms.toPolynomial_divMod_snd p.terms modulus.terms

theorem mod_mod (f M : ℚ[X]) : f % M % M = f % M := by
  by_cases hM : M = 0
  · rw [hM, EuclideanDomain.mod_zero]
  · exact (Polynomial.mod_eq_self_iff hM).2 (EuclideanDomain.mod_lt f hM)

/-- A remainder is its own remainder. -/
theorem remainder_remainder (p modulus : SparsePolynomial) :
    (p.remainder modulus).remainder modulus = p.remainder modulus := by
  refine eq_of_toPolynomial_eq ?_ rfl
  rw [toPolynomial_remainder (p.remainder modulus), toPolynomial_remainder, mod_mod]

/-- Products modulo a polynomial stand for the products of the residues. -/
theorem multipliesAs_mulModulo (modulus : SparsePolynomial) :
    MultipliesAs (mulModulo modulus) (fun (p : SparsePolynomial) (f : ℚ[X]) =>
      p.terms.toPolynomial % modulus.terms.toPolynomial = f % modulus.terms.toPolynomial) := by
  intro a b c f g ha hb h
  obtain ⟨product, hproduct, rfl⟩ := eq_ok_of_map h
  rw [toPolynomial_remainder, mod_mod, (terms_setting_of_mul hproduct).1, Terms.toPolynomial_mul,
    Polynomial.mul_mod, ha, hb, ← Polynomial.mul_mod]

theorem powMod_of_ne_zero (hmodulus : modulus.terms ≠ 0) :
    base.powMod exponent modulus =
      (powerBy (mulModulo modulus) (constantIn base.setting 1) (base.remainder modulus)
        exponent).map fun power => power.remainder modulus :=
  if_neg hmodulus

/-- What the powers modulo a polynomial are: the remainders of the exact powers. -/
theorem toPolynomial_of_powMod {power : SparsePolynomial}
    (h : base.powMod exponent modulus = .ok power) :
    power.terms.toPolynomial =
      base.terms.toPolynomial ^ exponent % modulus.terms.toPolynomial := by
  by_cases hmodulus : modulus.terms = 0
  · rw [powMod, if_pos hmodulus] at h
    cases h
  · rw [powMod_of_ne_zero hmodulus] at h
    obtain ⟨last, hlast, rfl⟩ := eq_ok_of_map h
    have hone : (constantIn base.setting 1).terms.toPolynomial % modulus.terms.toPolynomial =
        1 % modulus.terms.toPolynomial := by
      rw [toPolynomial_constantIn, C_1]
    have hbase : (base.remainder modulus).terms.toPolynomial % modulus.terms.toPolynomial =
        base.terms.toPolynomial % modulus.terms.toPolynomial := by
      rw [toPolynomial_remainder, mod_mod]
    rw [toPolynomial_remainder, (multipliesAs_mulModulo modulus).powerBy hone hbase hlast, one_mul]

theorem eq_overflow_of_powMod {cause : Error} (hmodulus : modulus.terms ≠ 0)
    (h : base.powMod exponent modulus = .error cause) :
    cause = .overflow .polynomialDegree := by
  rw [powMod_of_ne_zero hmodulus] at h
  obtain ⟨a, b, -, hproduct⟩ := exists_mul_eq_error_of_powerBy (eq_error_of_map h)
  exact (mul_eq_error_iff.1 (eq_error_of_map hproduct)).2

/-- For a positive exponent nothing is left for the last remainder to do. -/
theorem powMod_eq_powerBy (hmodulus : modulus.terms ≠ 0) (hexponent : exponent ≠ 0) :
    base.powMod exponent modulus =
      powerBy (mulModulo modulus) (constantIn base.setting 1) (base.remainder modulus)
        exponent := by
  rw [powMod_of_ne_zero hmodulus]
  cases hpower : powerBy (mulModulo modulus) (constantIn base.setting 1)
      (base.remainder modulus) exponent with
  | error cause => rfl
  | ok power =>
      -- It only matters that the power is a product, so the values stand for nothing in particular.
      have hunit : MultipliesAs (M := Unit) (mulModulo modulus) (fun _ _ => True) :=
        fun _ _ _ _ _ _ _ _ => trivial
      obtain ⟨a, b, -, -, -, -, -, hlast⟩ :=
        hunit.exists_mul_of_powerBy (x := ()) (y := ()) trivial trivial hexponent hpower
      obtain ⟨product, -, rfl⟩ := eq_ok_of_map hlast
      exact congrArg Except.ok (remainder_remainder product modulus)

/-- The moduli that reduce powers by a polynomial and leave their coefficients alone. -/
def polynomialModuli (modulus : SparsePolynomial) (hmodulus : modulus.terms ≠ 0) : Moduli :=
  ⟨none, chainFrom modulus hmodulus⟩

/-- Powers that are reduced by a configured polynomial are powers modulo that polynomial. -/
theorem pow_polynomialModuli (hmodulus : modulus.terms ≠ 0) (hexponent : exponent ≠ 0) :
    (base.withModuli (polynomialModuli modulus hmodulus)).pow exponent =
      (base.powMod exponent modulus).map (withModuli (polynomialModuli modulus hmodulus)) := by
  have hconfigured : (base.withModuli (polynomialModuli modulus hmodulus)).pow exponent =
      (base.withModuli (polynomialModuli modulus hmodulus)).powMod exponent modulus := by
    rw [pow_eq_reducedPow, powMod_eq_powerBy hmodulus hexponent]
    rfl
  rw [hconfigured]
  exact powMod_withModuli _ ⟨modulus.setting.coefficientModulus, modulus.setting.modulusChain⟩
    base exponent modulus

/-- A modulus of at most half of the limit on exponents keeps all degrees small enough. -/
theorem exists_powMod (hmodulus : modulus.terms ≠ 0) (hdegree : modulus.degree ≤ 2 ^ 31) :
    ∃ power, base.powMod exponent modulus = .ok power := by
  by_cases hexponent : exponent = 0
  · refine ⟨(constantIn base.setting 1).remainder modulus, ?_⟩
    rw [powMod_of_ne_zero hmodulus, hexponent, powerBy_zero]
    rfl
  · have hchain : (base.withModuli (polynomialModuli modulus hmodulus)).setting.modulusChain =
        ⟨modulus.terms, modulus.symbol, modulus.setting.coefficientModulus, modulus.below,
          hmodulus⟩ :: modulus.setting.modulusChain := rfl
    obtain ⟨power, hpower⟩ := exists_pow_of_modulus hchain hdegree exponent
    rw [pow_polynomialModuli hmodulus hexponent] at hpower
    obtain ⟨result, hresult, -⟩ := eq_ok_of_map hpower
    exact ⟨result, hresult⟩

/-- Configuring a polynomial without moduli gives it the polynomial modulus and nothing else. -/
theorem withPolynomialModulus_of_ne_zero (base : SparsePolynomial) (hmodulus : modulus.terms ≠ 0) :
    (base.withModuli ⟨none, []⟩).withPolynomialModulus modulus =
      .ok (base.withModuli (polynomialModuli modulus hmodulus)) :=
  dif_neg hmodulus

/-- The configured power is found in the setting that was configured. -/
theorem exists_withPolynomialModulus_pow (hexponent : 1 ≤ exponent) (hmodulus : modulus.terms ≠ 0) :
    ∃ configured, (base.withModuli ⟨none, []⟩).withPolynomialModulus modulus = .ok configured ∧
      configured.pow exponent = (base.powMod exponent modulus).map fun power =>
        { power with setting := configured.setting } := by
  refine ⟨_, withPolynomialModulus_of_ne_zero base hmodulus, ?_⟩
  rw [pow_polynomialModuli hmodulus (Nat.one_le_iff_ne_zero.1 hexponent)]
  cases hpower : base.powMod exponent modulus with
  | error cause => rfl
  | ok power =>
      refine congrArg Except.ok (eq_of_toPolynomial_eq rfl ?_)
      change power.setting.withModuli _ = base.setting.withModuli _
      rw [setting_of_powMod hpower]

/-- The power modulo a polynomial. A zero modulus is refused, and nothing else is refused as a zero
divisor; the only other failure is a degree that overflows, which no modulus of at most half of the
limit on exponents comes to. What is returned is the remainder of the exact power. For a positive
exponent the outcome, a value or an overflow, is that of the power of the base when it is configured
with the modulus and with no modulus for its coefficients. -/
theorem powMod_isModularPower (base modulus : SparsePolynomial) (exponent : Nat) :
    (base.powMod exponent modulus = .error .divisionByZero ↔ modulus.terms = 0) ∧
    (∀ cause, modulus.terms ≠ 0 → base.powMod exponent modulus = .error cause →
      cause = .overflow .polynomialDegree) ∧
    (∀ power, base.powMod exponent modulus = .ok power → power.setting = base.setting ∧
      power.terms.toPolynomial =
        base.terms.toPolynomial ^ exponent % modulus.terms.toPolynomial) ∧
    (modulus.terms ≠ 0 → modulus.degree ≤ 2 ^ 31 →
      ∃ power, base.powMod exponent modulus = .ok power) ∧
    (1 ≤ exponent → modulus.terms ≠ 0 → ∃ configured,
      (base.withModuli ⟨none, []⟩).withPolynomialModulus modulus = .ok configured ∧
        configured.pow exponent = (base.powMod exponent modulus).map fun power =>
          { power with setting := configured.setting }) := by
  refine ⟨⟨fun hzero => ?_, fun hmodulus => if_pos hmodulus⟩, fun _ => eq_overflow_of_powMod,
    fun power hpower => ⟨setting_of_powMod hpower, toPolynomial_of_powMod hpower⟩, exists_powMod,
    exists_withPolynomialModulus_pow⟩
  by_contra hmodulus
  cases eq_overflow_of_powMod hmodulus hzero

end ExactAlgebra.SparsePolynomial
