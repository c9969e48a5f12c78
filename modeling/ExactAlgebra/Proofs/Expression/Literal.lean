import ExactAlgebra.Proofs.Safety.Scanner

/-!
Decimal literals. A literal is a run of digits with at most one point among them, and each digit
counts for the place where it stands. The scanner finds a value for a run of digits and points
exactly if it is a literal, and then it is the value of the literal.
-/

namespace ExactAlgebra

/-- The value of one decimal digit. -/
def digitValue (c : Char) : ℚ := ((c.toNat - '0'.toNat : ℕ) : ℚ)

def wholeValue : List Char → ℚ
  | [] => 0
  | c :: rest => digitValue c * 10 ^ rest.length + wholeValue rest

def fractionValue : List Char → ℚ
  | [] => 0
  | c :: rest => (digitValue c + fractionValue rest) / 10

/-- The value of a literal, from the digits on both sides of its point. -/
def literalValue (literal : List Char) : ℚ :=
  wholeValue (literal.takeWhile (· != '.')) + fractionValue (literal.dropWhile (· != '.')).tail

/-- Digits and at most one point, with at least one digit. -/
structure IsLiteral (literal : List Char) : Prop where
  numeric : ∀ c ∈ literal, isNumeric c = true
  one_point : literal.count '.' ≤ 1
  has_digit : ∃ c ∈ literal, c.isDigit = true

theorem ofDigitChars_eq_wholeValue (digits : List Char) :
    (Nat.ofDigitChars 10 digits 0 : ℚ) = wholeValue digits := by
  induction digits with
  | nil => rfl
  | cons c digits ih =>
      rw [Nat.ofDigitChars_cons, Nat.ofDigitChars_eq_ofDigitChars_zero, wholeValue, ← ih,
        digitValue]
      push_cast
      ring

theorem wholeValue_append (whole others : List Char) :
    wholeValue (whole ++ others) = wholeValue whole * 10 ^ others.length + wholeValue others := by
  induction whole with
  | nil => rw [List.nil_append, wholeValue, zero_mul, zero_add]
  | cons c whole ih =>
      rw [List.cons_append, wholeValue, wholeValue, ih, List.length_append, pow_add]
      ring

/-- Moving the point behind the digits makes a whole number of them. -/
theorem fractionValue_mul_pow (digits : List Char) :
    fractionValue digits * 10 ^ digits.length = wholeValue digits := by
  induction digits with
  | nil => rw [fractionValue, wholeValue, zero_mul]
  | cons c digits ih =>
      rw [fractionValue, wholeValue, ← ih, List.length_cons, pow_succ]
      ring

theorem decimalValue_eq_add (whole fraction : List Char) :
    decimalValue whole fraction = wholeValue whole + fractionValue fraction := by
  have hpow : (10 : ℚ) ^ fraction.length ≠ 0 := by positivity
  rw [decimalValue_eq_div, ofDigitChars_eq_wholeValue, wholeValue_append, add_div,
    mul_div_cancel_right₀ _ hpow, ← fractionValue_mul_pow fraction, mul_div_cancel_right₀ _ hpow]

section Digits

variable {whole fraction : List Char} (hwhole : ∀ c ∈ whole, c.isDigit = true)

include hwhole

theorem ne_point_of_digits : ∀ c ∈ whole, (c != '.') = true := by
  intro c hc
  rw [bne_iff_ne]
  rintro rfl
  exact absurd (hwhole _ hc) (by decide)

theorem count_point_of_digits : whole.count '.' = 0 := by
  rw [List.count_eq_zero]
  intro hmem
  exact absurd (hwhole _ hmem) (by decide)

theorem literalValue_digits : literalValue whole = decimalValue whole [] := by
  have hne := ne_point_of_digits hwhole
  rw [literalValue, List.takeWhile_eq_self_iff.2 hne, List.dropWhile_eq_nil_iff.2 hne,
    decimalValue_eq_add]
  rfl

theorem literalValue_point :
    literalValue (whole ++ '.' :: fraction) = decimalValue whole fraction := by
  have hne := ne_point_of_digits hwhole
  rw [literalValue, List.takeWhile_append_of_pos hne, List.dropWhile_append_of_pos hne,
    List.takeWhile_cons_of_neg (by decide), List.dropWhile_cons_of_neg (by decide),
    List.append_nil, List.tail_cons, decimalValue_eq_add]

theorem isLiteral_digits (hne : whole ≠ []) : IsLiteral whole where
  numeric c hc := isNumeric_of_isDigit (hwhole c hc)
  one_point := by
    rw [count_point_of_digits hwhole]
    exact Nat.zero_le 1
  has_digit := by
    obtain ⟨c, hc⟩ := List.exists_mem_of_ne_nil _ hne
    exact ⟨c, hc, hwhole c hc⟩

/-- Digits around a point are a literal if there are any. -/
theorem isLiteral_point_iff (hfraction : ∀ c ∈ fraction, c.isDigit = true) :
    IsLiteral (whole ++ '.' :: fraction) ↔ ¬ (whole = [] ∧ fraction = []) := by
  constructor
  · rintro h ⟨rfl, rfl⟩
    obtain ⟨c, hc, hdigit⟩ := h.has_digit
    rw [List.nil_append, List.mem_singleton] at hc
    rw [hc] at hdigit
    exact absurd hdigit (by decide)
  · intro hne
    have hdigits : ∀ c ∈ whole ++ fraction, c.isDigit = true :=
      List.forall_mem_append.2 ⟨hwhole, hfraction⟩
    have hmem : ∀ c, c ∈ whole ++ '.' :: fraction ↔ c = '.' ∨ c ∈ whole ++ fraction := by
      intro c
      rw [List.mem_append, List.mem_cons, List.mem_append]
      tauto
    refine ⟨fun c hc => ?_, ?_, ?_⟩
    · rcases (hmem c).1 hc with rfl | hc
      · decide
      · exact isNumeric_of_isDigit (hdigits c hc)
    · rw [List.count_append, List.count_cons_self, count_point_of_digits hwhole,
        count_point_of_digits hfraction]
    · obtain ⟨c, hc⟩ := List.exists_mem_of_ne_nil (whole ++ fraction)
        (fun hempty => hne (List.append_eq_nil_iff.1 hempty))
      exact ⟨c, (hmem c).2 (.inr hc), hdigits c hc⟩

end Digits

/-- With a second point there is no literal. -/
theorem not_isLiteral_second_point (whole fraction more : List Char) :
    ¬ IsLiteral (whole ++ '.' :: (fraction ++ '.' :: more)) := by
  intro h
  have hcount := h.one_point
  rw [List.count_append, List.count_cons_self, List.count_append, List.count_cons_self] at hcount
  omega

/-- A run of digits and points has a value exactly if it is a literal. -/
theorem numberValue_eq_ok_iff {run : List Char} (hne : run ≠ [])
    (hrun : ∀ c ∈ run, isNumeric c = true) {position : Nat} {value : Rat} :
    numberValue position run = .ok value ↔ IsLiteral run ∧ literalValue run = value := by
  obtain ⟨whole, others, rfl, hwhole, rfl | ⟨more, rfl⟩⟩ := Guarded.exists_digits_append hrun
  · rw [List.append_nil] at hne ⊢
    rw [numberValue_of_digits hwhole, literalValue_digits hwhole, Except.ok.injEq]
    exact (and_iff_right (isLiteral_digits hwhole hne)).symm
  · have hmore : ∀ c ∈ more, isNumeric c = true :=
      fun c hc => hrun c (List.mem_append_right _ (List.mem_cons_of_mem _ hc))
    obtain ⟨fraction, others, rfl, hfraction, hothers⟩ := Guarded.exists_digits_append hmore
    rw [Guarded.numberValue_decimal hwhole hfraction hothers]
    rcases hothers with rfl | ⟨more, rfl⟩
    · rw [if_neg (fun h => h rfl), List.append_nil, isLiteral_point_iff hwhole hfraction,
        literalValue_point hwhole]
      split
      · rename_i hempty
        exact ⟨fun h => (by cases h), fun h => absurd hempty h.1⟩
      · rename_i hdigit
        rw [Except.ok.injEq]
        exact (and_iff_right hdigit).symm
    · rw [if_pos (List.cons_ne_nil _ _)]
      exact ⟨fun h => (by cases h), fun h => absurd h.1 (not_isLiteral_second_point _ _ _)⟩

theorem IsLiteral.ne_nil {literal : List Char} (h : IsLiteral literal) : literal ≠ [] := by
  obtain ⟨c, hc, _⟩ := h.has_digit
  exact List.ne_nil_of_mem hc

theorem IsLiteral.numeral {literal : List Char} (h : IsLiteral literal) :
    Numeral literal (literalValue literal) where
  numeric := h.numeric
  nonempty := h.ne_nil
  value_eq _ := (numberValue_eq_ok_iff h.ne_nil h.numeric).2 ⟨h, rfl⟩

end ExactAlgebra
