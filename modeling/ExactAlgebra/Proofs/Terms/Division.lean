import ExactAlgebra.Proofs.Terms.Polynomial
import Mathlib.Algebra.Polynomial.FieldDivision

/-!
Long division of sums of terms is the division of polynomials over the rational numbers. Each step
takes a multiple of the divisor away, and what is left in the end is smaller than the divisor; there
is only one such remainder.
-/

namespace ExactAlgebra.Terms

open Polynomial

theorem leadingQuotient_mul_leading {p d : Terms} (hd : d ≠ 0) (h : d.degree ≤ p.degree) :
    (monomial (leadingQuotient p d).exponent (leadingQuotient p d).coefficient : ℚ[X]) *
        monomial d.leading.exponent d.leading.coefficient =
      monomial p.leading.exponent p.leading.coefficient := by
  have hexponent : p.degree - d.degree + d.leading.exponent = p.leading.exponent :=
    Nat.sub_add_cancel h
  rw [monomial_mul_monomial, leadingQuotient, hexponent,
    div_mul_cancel₀ _ (leading_coefficient_ne_zero hd)]

/-- Eliminating the leading term takes a multiple of the divisor away. -/
theorem toPolynomial_eliminateLeading {p d : Terms} (hd : d ≠ 0) (h : d.degree ≤ p.degree) :
    p.toPolynomial =
      (single (leadingQuotient p d)).toPolynomial * d.toPolynomial +
        (eliminateLeading p d).toPolynomial := by
  rw [eliminateLeading, toPolynomial_sub, toPolynomial_mulTerm, toPolynomial_single,
    ← leading_add_tail_eq_toPolynomial p, ← leading_add_tail_eq_toPolynomial d, mul_add,
    leadingQuotient_mul_leading hd h]
  change _ + p.tail.toPolynomial = _ + _ * d.tail.toPolynomial + _
  ring

theorem toPolynomial_divMod (p d : Terms) :
    p.toPolynomial =
      (divMod p d).1.toPolynomial * d.toPolynomial + (divMod p d).2.toPolynomial := by
  fun_induction divMod p d with
  | case1 p hstop => rw [toPolynomial_zero, zero_mul, zero_add]
  | case2 p hcontinue rest ih =>
      simp only [not_or, Nat.not_lt] at hcontinue
      obtain ⟨_, hd, hdegree⟩ := hcontinue
      rw [toPolynomial_add, add_mul, add_assoc, ← ih]
      exact toPolynomial_eliminateLeading hd hdegree

/-- What is zero or of smaller degree than a nonzero divisor has a smaller degree as a polynomial,
where zero has none. -/
theorem degree_toPolynomial_lt {r d : Terms} (hd : d ≠ 0) (h : r = 0 ∨ r.degree < d.degree) :
    r.toPolynomial.degree < d.toPolynomial.degree := by
  have hdPolynomial : d.toPolynomial ≠ 0 := fun h => hd ((toPolynomial_eq_zero_iff d).1 h)
  rcases h with hzero | hlt
  · rw [hzero, toPolynomial_zero, Polynomial.degree_zero, bot_lt_iff_ne_bot]
    exact fun hbot => hdPolynomial (degree_eq_bot.1 hbot)
  · apply degree_lt_degree
    rwa [natDegree_toPolynomial, natDegree_toPolynomial]

/-- The remainder has a smaller degree than the divisor. -/
theorem degree_divMod_snd_lt {p d : Terms} (hd : d ≠ 0) :
    (divMod p d).2.toPolynomial.degree < d.toPolynomial.degree :=
  degree_toPolynomial_lt hd (divMod_snd_eq_zero_or_degree_lt hd)

/-- The remainder of the terms is the remainder of the polynomials. -/
theorem toPolynomial_divMod_snd (p d : Terms) :
    (divMod p d).2.toPolynomial = p.toPolynomial % d.toPolynomial := by
  by_cases hd : d = 0
  · subst hd
    rw [divMod, dif_pos (Or.inr (Or.inl rfl)), toPolynomial_zero, EuclideanDomain.mod_zero]
  · have hdPolynomial : d.toPolynomial ≠ 0 := fun h => hd ((toPolynomial_eq_zero_iff d).1 h)
    conv_rhs => rw [toPolynomial_divMod p d]
    rw [Polynomial.add_mod, EuclideanDomain.mod_eq_zero.2 (dvd_mul_left _ _), zero_add,
      (Polynomial.mod_eq_self_iff hdPolynomial).2 (degree_divMod_snd_lt hd)]

/-- There is one way to write the dividend as a multiple of the divisor and a rest of smaller
degree. -/
theorem divMod_eq_of_sum {p d q r : Terms} (hd : d ≠ 0)
    (hsum : p.toPolynomial = q.toPolynomial * d.toPolynomial + r.toPolynomial)
    (hsmall : r = 0 ∨ r.degree < d.degree) : divMod p d = (q, r) := by
  have hdPolynomial : d.toPolynomial ≠ 0 := fun h => hd ((toPolynomial_eq_zero_iff d).1 h)
  have hremainder : (divMod p d).2 = r := by
    apply toPolynomial_injective
    rw [toPolynomial_divMod_snd, hsum, Polynomial.add_mod,
      EuclideanDomain.mod_eq_zero.2 (dvd_mul_left _ _), zero_add,
      (Polynomial.mod_eq_self_iff hdPolynomial).2 (degree_toPolynomial_lt hd hsmall)]
  have hquotient : (divMod p d).1 = q := by
    apply toPolynomial_injective
    apply mul_right_cancel₀ hdPolynomial
    have hdivision := toPolynomial_divMod p d
    rw [hremainder, hsum] at hdivision
    exact (add_right_cancel hdivision).symm
  exact Prod.ext hquotient hremainder

end ExactAlgebra.Terms
