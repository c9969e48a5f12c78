import ExactAlgebra.Proofs.Expression.Operand

/-!
Powers with integers as exponents. Natural numbers within the exponents give the powers of the
polynomial ring, and every other integer is refused as an invalid exponent: the negative ones, and
also those beyond the exponents, whatever the degree of the power is. An integer is treated alike
whether it is given to a polynomial or is the value of an operand.
-/

namespace ExactAlgebra

theorem exponent?_eq_none {value : ℤ} (h : value < 0 ∨ 2 ^ 32 ≤ value) :
    exponent? value = none := by
  refine dif_neg ?_
  rintro ⟨hnonneg, hlimit⟩
  rw [exponentLimit] at hlimit
  omega

namespace SparsePolynomial

variable {p : SparsePolynomial} {exponent : ℤ}

/-- An integer and the number with its value are refused alike, with the same text. -/
theorem powInt_eq_bind (p : SparsePolynomial) (exponent : ℤ) :
    p.powInt exponent = (do
      let exponent ← powerExponent (exponent : ℚ)
      p.pow exponent.val) := by
  have htext : Rational.fractionText (exponent : ℚ) = Rational.intText exponent := if_pos rfl
  have hinteger : (if (exponent : ℚ).den = 1 then exponent? (exponent : ℚ).num else none) =
      exponent? exponent := if_pos rfl
  rw [powInt, powerExponent, hinteger, htext]
  cases exponent? exponent <;> rfl

theorem powInt_natCast {n : Nat} (h : n < exponentLimit) (p : SparsePolynomial) :
    p.powInt n = p.pow n := by
  rw [powInt, exponent?_natCast h]

theorem powInt_eq_invalidExponent (h : exponent < 0 ∨ 2 ^ 32 ≤ exponent) (p : SparsePolynomial) :
    p.powInt exponent = .error (.invalidExponent (String.ofList (Rational.intText exponent))) := by
  rw [powInt, exponent?_eq_none h]

/-- The power for an integer, with each failure told by its cause: the exponents that are not valid
are the negative ones, and what overflows is the degree of a power that is too large. -/
structure IsSignedPower (p : SparsePolynomial) (exponent : ℤ)
    (outcome : Except Error SparsePolynomial) : Prop where
  invalid : (∃ text, outcome = .error (.invalidExponent text)) ↔ exponent < 0
  overflow : outcome = .error (.overflow .polynomialDegree) ↔
    0 ≤ exponent ∧ 2 ^ 32 - 1 < p.degree * exponent
  value : 0 ≤ exponent → p.degree * exponent ≤ 2 ^ 32 - 1 → ∃ power, outcome = .ok power ∧
    power.setting = p.setting ∧ power.terms.toPolynomial = p.terms.toPolynomial ^ exponent.toNat

theorem isSignedPower_of_neg (h : exponent < 0) (text : String) :
    IsSignedPower p exponent (.error (.invalidExponent text)) where
  invalid := ⟨fun _ => h, fun _ => ⟨text, rfl⟩⟩
  overflow := by
    constructor
    · nofun
    · rintro ⟨hnonneg, -⟩
      omega
  value hnonneg := by omega

/-- The powers for natural numbers have the right causes for every natural number. -/
theorem isSignedPower_pow (hfree : p.setting.isFree = true) (n : Nat) :
    IsSignedPower p n (p.pow n) where
  invalid := by
    constructor
    · rintro ⟨text, htext⟩
      cases ((pow_eq_error_iff hfree).1 htext).2
    · omega
  overflow := by
    rw [pow_eq_error_iff hfree, ← Nat.cast_mul, and_iff_left rfl, exponentLimit]
    omega
  value _ hdegree := by
    rw [← Nat.cast_mul] at hdegree
    have hlimit : p.degree * n < exponentLimit := by
      rw [exponentLimit]
      omega
    exact exists_pow hfree hlimit

/-- Without moduli, the power for an integer has its causes right as long as the integer is below
the limit on exponents, and from there on it is refused as if it were negative. A number with the
value of the integer gives an operand the same power, or the same refusal. -/
theorem powInt_isSignedPower_iff (hfree : p.setting.isFree = true) (exponent : ℤ) :
    (IsSignedPower p exponent (p.powInt exponent) ↔ exponent < 2 ^ 32) ∧
    (exponent < 0 ∨ 2 ^ 32 ≤ exponent →
      p.powInt exponent =
        .error (.invalidExponent (String.ofList (Rational.intText exponent)))) ∧
    (Operand.polynomial p).pow (.number exponent) = (p.powInt exponent).map .polynomial := by
  refine ⟨⟨fun hsigned => ?_, fun hlimit => ?_⟩,
    fun hinvalid => powInt_eq_invalidExponent hinvalid p, ?_⟩
  · by_contra hlarge
    have hrefused := powInt_eq_invalidExponent (Or.inr (Int.not_lt.1 hlarge)) p
    have hneg := hsigned.invalid.1 ⟨_, hrefused⟩
    omega
  · rcases Int.lt_or_le exponent 0 with hneg | hnonneg
    · rw [powInt_eq_invalidExponent (Or.inl hneg) p]
      exact isSignedPower_of_neg hneg _
    · obtain ⟨n, rfl⟩ := Int.eq_ofNat_of_zero_le hnonneg
      have hn : n < exponentLimit := by
        rw [exponentLimit]
        omega
      rw [powInt_natCast hn]
      exact isSignedPower_pow hfree n
  · rw [powInt_eq_bind]
    change (powerExponent (exponent : ℚ) >>= fun exponent =>
      (p.pow exponent.val).map Operand.polynomial) = _
    cases powerExponent (exponent : ℚ) <;> rfl

/-- The largest exponent is the last one for the variable, and minus one is no exponent. -/
theorem powInt_variable :
    (term 1 oneExponent).setting.isFree = true ∧
    (∃ power, (term 1 oneExponent).powInt 4294967295 = .ok power ∧
      power.terms.toPolynomial = Polynomial.X ^ (4294967295 : ℤ).toNat ∧
      (Operand.polynomial (term 1 oneExponent)).pow (.number ((4294967295 : ℤ) : ℚ)) =
        .ok (.polynomial power)) ∧
    ∃ text, (term 1 oneExponent).powInt (-1) = .error (.invalidExponent text) := by
  have hfree : (term 1 oneExponent).setting.isFree = true := rfl
  have hdegree : (term 1 oneExponent).degree = 1 := by decide +kernel
  have hterms : (term 1 oneExponent).terms.toPolynomial = Polynomial.X :=
    (Terms.toPolynomial_single ⟨1, 1⟩).trans Polynomial.monomial_one_one_eq_X
  obtain ⟨hsigned, -, hoperand⟩ := powInt_isSignedPower_iff hfree 4294967295
  obtain ⟨power, hpower, -, hvalue⟩ := (hsigned.2 (by decide)).value (by decide) (by
    rw [hdegree]
    decide)
  refine ⟨hfree, ⟨power, hpower, by rw [hvalue, hterms], ?_⟩, ?_⟩
  · rw [hoperand, hpower]
    rfl
  · exact ((powInt_isSignedPower_iff hfree (-1)).1.2 (by decide)).invalid.2 (by decide)

/-- One beyond the largest exponent, the variable has no power because the degree would be too
large, and one has the power one; both are refused for an exponent that is not valid. -/
theorem powInt_beyond_exponents :
    (term 1 oneExponent).powInt 4294967296 = .error (.invalidExponent "4294967296") ∧
    (constant 1).powInt 4294967296 = .error (.invalidExponent "4294967296") ∧
    (term 1 oneExponent).degree = 1 ∧
    ¬ IsSignedPower (term 1 oneExponent) 4294967296 ((term 1 oneExponent).powInt 4294967296) := by
  have htext : String.ofList (Rational.intText 4294967296) = "4294967296" := by decide +kernel
  have hrefused : ∀ p : SparsePolynomial,
      p.powInt 4294967296 = .error (.invalidExponent "4294967296") := by
    intro p
    rw [powInt_eq_invalidExponent (Or.inr (by decide)), htext]
  refine ⟨hrefused _, hrefused _, by decide +kernel, fun hsigned => ?_⟩
  have hneg := hsigned.invalid.1 ⟨_, hrefused _⟩
  omega

end SparsePolynomial

end ExactAlgebra
