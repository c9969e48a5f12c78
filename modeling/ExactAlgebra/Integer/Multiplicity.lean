/-!
How often one number divides another. Taking every factor `d` out of `n` leaves a number that `d`
does not divide, and what was taken out and what is left multiply to `n`.
-/

namespace ExactAlgebra.Integer

/-- The number of times that `d` divides `n`, and what is left of `n` after that. -/
def divideOut (d n : Nat) : Nat × Nat :=
  if _h : 1 < d ∧ 0 < n ∧ n % d = 0 then
    let rest := divideOut d (n / d)
    (rest.1 + 1, rest.2)
  else (0, n)
termination_by n
decreasing_by exact Nat.div_lt_self _h.2.1 _h.1

theorem divideOut_of_dvd {d n : Nat} (hd : 1 < d) (hn : 0 < n) (h : n % d = 0) :
    divideOut d n = ((divideOut d (n / d)).1 + 1, (divideOut d (n / d)).2) := by
  rw [divideOut, dif_pos ⟨hd, hn, h⟩]

theorem divideOut_of_not_dvd {d n : Nat} (h : n % d ≠ 0) : divideOut d n = (0, n) := by
  rw [divideOut, dif_neg (fun hall => h hall.2.2)]

/-- What was taken out and what is left multiply to the number. -/
theorem pow_mul_divideOut (d n : Nat) :
    Nat.pow d (divideOut d n).1 * (divideOut d n).2 = n := by
  fun_induction divideOut d n with
  | case1 n h rest ih =>
      have hdiv : d * (n / d) = n := Nat.mul_div_cancel' (Nat.dvd_of_mod_eq_zero h.2.2)
      change Nat.pow d rest.1 * d * rest.2 = n
      rw [Nat.mul_right_comm, ih, Nat.mul_comm, hdiv]
  | case2 => simp

/-- What is left is not a multiple of `d`. -/
theorem divideOut_snd_mod_ne_zero {d n : Nat} (hd : 1 < d) (hn : 0 < n) :
    (divideOut d n).2 % d ≠ 0 := by
  fun_induction divideOut d n with
  | case1 n h rest ih =>
      exact ih (Nat.div_pos (Nat.le_of_dvd hn (Nat.dvd_of_mod_eq_zero h.2.2)) (by omega))
  | case2 n h => exact fun hmod => h ⟨hd, hn, hmod⟩

theorem divideOut_snd_pos {d n : Nat} (hn : 0 < n) : 0 < (divideOut d n).2 := by
  have h := pow_mul_divideOut d n
  exact Nat.pos_of_ne_zero fun hzero => by simp [hzero] at h; omega

theorem divideOut_snd_le {d n : Nat} (hn : 0 < n) : (divideOut d n).2 ≤ n :=
  Nat.le_of_dvd hn ⟨Nat.pow d (divideOut d n).1, by
    rw [Nat.mul_comm, pow_mul_divideOut]⟩

end ExactAlgebra.Integer
