import ExactAlgebra.Terms.Arithmetic

/-!
Long division. While the dividend reaches the degree of the divisor, its leading term is
eliminated by a multiple of the divisor; the leading terms cancel by the choice of the multiple,
so only the terms below them have to be subtracted, and the dividend's exponents fall below its
former degree.
-/

namespace ExactAlgebra.Terms

/-- The quotient of two leading terms. -/
def leadingQuotient (p d : Terms) : Term :=
  ⟨p.leading.coefficient / d.leading.coefficient, p.degree - d.degree⟩

/-- The dividend after its leading term was eliminated. -/
def eliminateLeading (p d : Terms) : Terms :=
  p.tail - d.tail.mulTerm (leadingQuotient p d)

theorem below_eliminateLeading {p d : Terms} (h : d.degree ≤ p.degree) :
    (eliminateLeading p d).Below p.degree := by
  refine below_sub (below_tail p) ((below_mulTerm (below_tail d) _).mono ?_)
  simp only [leadingQuotient]
  omega

theorem bound_eliminateLeading_lt {p d : Terms} (hp : p ≠ 0) (h : d.degree ≤ p.degree) :
    (eliminateLeading p d).bound < p.bound := by
  have hle := bound_le_of_below (below_eliminateLeading h)
  have hbound : p.bound = p.degree + 1 := by simp [bound, hp]
  omega

/-- Quotient and remainder. Division by zero leaves the whole dividend as the remainder. -/
def divMod (p d : Terms) : Terms × Terms :=
  if _h : p = 0 ∨ d = 0 ∨ p.degree < d.degree then (0, p)
  else
    let rest := divMod (eliminateLeading p d) d
    (single (leadingQuotient p d) + rest.1, rest.2)
termination_by p.bound
decreasing_by
  simp only [not_or, Nat.not_lt] at _h
  exact bound_eliminateLeading_lt _h.1 _h.2.2

/-- The quotient has no exponents above those of the dividend. -/
theorem below_divMod_fst {limit : Nat} {p d : Terms} (h : p.Below limit) :
    (divMod p d).1.Below limit := by
  fun_induction divMod p d with
  | case1 => exact below_zero limit
  | case2 p hcontinue rest ih =>
      simp only [not_or, Nat.not_lt] at hcontinue
      obtain ⟨hp, _, hdegree⟩ := hcontinue
      have hlt := degree_lt_of_below h hp
      refine below_add (below_single ?_)
        (ih ((below_eliminateLeading hdegree).mono (Nat.le_of_lt hlt)))
      simp only [leadingQuotient]
      omega

/-- The remainder has no exponents above those of the dividend. -/
theorem below_divMod_snd {limit : Nat} {p d : Terms} (h : p.Below limit) :
    (divMod p d).2.Below limit := by
  fun_induction divMod p d with
  | case1 => exact h
  | case2 p hcontinue rest ih =>
      simp only [not_or, Nat.not_lt] at hcontinue
      obtain ⟨hp, _, hdegree⟩ := hcontinue
      exact ih ((below_eliminateLeading hdegree).mono (Nat.le_of_lt (degree_lt_of_below h hp)))

/-- The remainder is zero or of smaller degree than the divisor. -/
theorem divMod_snd_eq_zero_or_degree_lt {p d : Terms} (hd : d ≠ 0) :
    (divMod p d).2 = 0 ∨ (divMod p d).2.degree < d.degree := by
  fun_induction divMod p d with
  | case1 p hstop =>
      rcases hstop with hp | hzero | hlt
      · exact Or.inl hp
      · exact absurd hzero hd
      · exact Or.inr hlt
  | case2 p hcontinue rest ih => exact ih

end ExactAlgebra.Terms
