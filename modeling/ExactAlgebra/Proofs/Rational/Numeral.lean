import ExactAlgebra.Proofs.Rational.Decimal
import Mathlib.Order.Bounds.Defs
import Mathlib.Tactic.FieldSimp
import Mathlib.Tactic.Ring

/-!
Numbers told from their written forms. The form of a coefficient tells whether it is an integer, a
decimal or a fraction, since only a decimal has a point and only a fraction parentheses. What is
written denotes the value exactly, with no more decimal places than needed, so that different
numbers have different texts, and so they have in the plain form of matrix entries.
-/

namespace ExactAlgebra.Rational

/-- A minus sign or none. -/
def IsSign (sign : List Char) : Prop := sign = [] ∨ sign = ['-']

/-- The form of an integer. -/
def IsIntegerText (text : List Char) : Prop :=
  ∃ sign digits, IsSign sign ∧ IsNaturalText digits ∧ text = sign ++ digits

/-- The form of a decimal: digits on both sides of a point. -/
def IsDecimalText (text : List Char) : Prop :=
  ∃ sign whole places, IsSign sign ∧ IsNaturalText whole ∧ places ≠ [] ∧
    (∀ c ∈ places, c.isDigit = true) ∧ text = sign ++ (whole ++ '.' :: places)

/-- The form of a fraction: two integers with a slash between, in parentheses. -/
def IsFractionText (text : List Char) : Prop :=
  ∃ sign numerator denominator, IsSign sign ∧ IsNaturalText numerator ∧
    IsNaturalText denominator ∧ text = '(' :: (sign ++ numerator ++ '/' :: denominator ++ [')'])

/-- What an integer is written as. -/
def WritesInteger (q : ℚ) (text : List Char) : Prop :=
  ∃ digits, text = signText q ++ digits ∧ IsNaturalText digits ∧
    (Nat.ofDigitChars 10 digits 0 : ℚ) = |q|

/-- What a decimal is written as: no power of ten with a smaller exponent than there are places
makes the value an integer, so the last place is not zero. -/
def WritesDecimal (q : ℚ) (text : List Char) : Prop :=
  ∃ whole places, text = signText q ++ (whole ++ '.' :: places) ∧ IsExpansion whole places |q| ∧
    IsLeast {k : ℕ | ∃ n : ℤ, q * 10 ^ k = n} places.length ∧ places.getLast? ≠ some '0'

/-- What a quotient is written as: numerator and denominator in lowest terms. -/
def WritesQuotient (q : ℚ) (text : List Char) : Prop :=
  ∃ numerator denominator, text = signText q ++ (numerator ++ '/' :: denominator) ∧
    IsNaturalText numerator ∧ IsNaturalText denominator ∧
      Nat.ofDigitChars 10 numerator 0 = q.num.natAbs ∧ Nat.ofDigitChars 10 denominator 0 = q.den

/-- What a fraction is written as: a quotient in parentheses. -/
def WritesFraction (q : ℚ) (text : List Char) : Prop :=
  ∃ quotient, text = '(' :: (quotient ++ [')']) ∧ WritesQuotient q quotient

/-- The form of a text tells which kind of value it denotes, and it denotes the value exactly. -/
structure IsExactText (q : ℚ) (text : List Char) : Prop where
  integer_iff : IsIntegerText text ↔ ∃ n : ℤ, q = n
  decimal_iff : IsDecimalText text ↔ (¬∃ n : ℤ, q = n) ∧ OnlyTwosAndFives q.den
  fraction_iff : IsFractionText text ↔ (¬∃ n : ℤ, q = n) ∧ ¬OnlyTwosAndFives q.den
  integer : (∃ n : ℤ, q = n) → WritesInteger q text
  decimal : (¬∃ n : ℤ, q = n) → OnlyTwosAndFives q.den → WritesDecimal q text
  fraction : (¬∃ n : ℤ, q = n) → ¬OnlyTwosAndFives q.den → WritesFraction q text

/-- The text denotes the value exactly without decimals, as an integer or as a quotient. -/
structure WritesPlainly (q : ℚ) (text : List Char) : Prop where
  integer : (∃ n : ℤ, q = n) → WritesInteger q text
  quotient : (¬∃ n : ℤ, q = n) → WritesQuotient q text

variable {q r : ℚ} {text : List Char}

section Forms

variable {sign digits : List Char} {c : Char}

theorem not_mem_of_isDigit (h : ∀ d ∈ digits, d.isDigit = true) (hc : c.isDigit = false) :
    c ∉ digits := by
  intro hmem
  rw [h c hmem] at hc
  cases hc

theorem IsNaturalText.not_mem (h : IsNaturalText digits) (hc : c.isDigit = false) : c ∉ digits :=
  not_mem_of_isDigit h.isDigit hc

theorem IsSign.not_mem (h : IsSign sign) (hc : c ≠ '-') : c ∉ sign := by
  rcases h with rfl | rfl
  · exact List.not_mem_nil
  · exact fun hmem => hc (List.mem_singleton.1 hmem)

theorem isSign_signText (q : ℚ) : IsSign (signText q) := by
  by_cases h : q < 0
  · exact Or.inr (signText_of_neg h)
  · exact Or.inl (signText_of_nonneg h)

theorem IsIntegerText.not_mem (h : IsIntegerText text) (hdigit : c.isDigit = false)
    (hsign : c ≠ '-') : c ∉ text := by
  obtain ⟨sign, digits, hsigned, hdigits, rfl⟩ := h
  rw [List.mem_append, not_or]
  exact ⟨hsigned.not_mem hsign, hdigits.not_mem hdigit⟩

theorem IsDecimalText.point_mem (h : IsDecimalText text) : '.' ∈ text := by
  obtain ⟨sign, whole, places, -, -, -, -, rfl⟩ := h
  simp

theorem IsDecimalText.parenthesis_not_mem (h : IsDecimalText text) : '(' ∉ text := by
  obtain ⟨sign, whole, places, hsign, hwhole, -, hplaces, rfl⟩ := h
  rw [List.mem_append, List.mem_append, List.mem_cons, not_or, not_or, not_or]
  exact ⟨hsign.not_mem (by decide), hwhole.not_mem rfl, by decide,
    not_mem_of_isDigit hplaces rfl⟩

theorem IsFractionText.parenthesis_mem (h : IsFractionText text) : '(' ∈ text := by
  obtain ⟨sign, numerator, denominator, -, -, -, rfl⟩ := h
  exact List.mem_cons_self

theorem isIntegerText_of_writes (h : WritesInteger q text) : IsIntegerText text := by
  obtain ⟨digits, rfl, hdigits, -⟩ := h
  exact ⟨_, _, isSign_signText q, hdigits, rfl⟩

theorem isDecimalText_of_writes (hq : ¬∃ n : ℤ, q = n) (h : WritesDecimal q text) :
    IsDecimalText text := by
  obtain ⟨whole, places, rfl, hexpansion, hleast, -⟩ := h
  refine ⟨_, _, _, isSign_signText q, hexpansion.isNaturalText, ?_, hexpansion.isDigit, rfl⟩
  rintro rfl
  obtain ⟨n, hn⟩ := hleast.1
  exact hq ⟨n, by rwa [List.length_nil, pow_zero, mul_one] at hn⟩

theorem isFractionText_of_writes (h : WritesFraction q text) : IsFractionText text := by
  obtain ⟨quotient, rfl, numerator, denominator, rfl, hnumerator, hdenominator, -⟩ := h
  exact ⟨_, _, _, isSign_signText q, hnumerator, hdenominator, by simp⟩

end Forms

section Places

theorem exists_eq_intCast_iff : (∃ n : ℤ, q = n) ↔ q.den = 1 := by
  rw [Rat.den_eq_one_iff]
  constructor
  · rintro ⟨n, rfl⟩
    rfl
  · intro h
    exact ⟨q.num, h.symm⟩

/-- A power of ten makes a fraction an integer exactly when the denominator divides it. -/
theorem exists_mul_pow_eq_iff (k : ℕ) : (∃ n : ℤ, q * 10 ^ k = n) ↔ q.den ∣ 10 ^ k := by
  constructor
  · rintro ⟨n, hn⟩
    have hscaled : q.num * 10 ^ k = n * q.den := by
      have hproduct : (q.num : ℚ) * 10 ^ k = n * q.den := by
        rw [← hn, ← Rat.mul_den_eq_num]
        ring
      exact_mod_cast hproduct
    have hdvd : q.den ∣ q.num.natAbs * 10 ^ k := by
      have habs := congrArg Int.natAbs hscaled
      rw [Int.natAbs_mul, Int.natAbs_mul, Int.natAbs_pow, Int.natAbs_natCast] at habs
      exact Dvd.intro_left _ habs.symm
    exact q.reduced.symm.dvd_of_dvd_mul_left hdvd
  · rintro ⟨factor, hfactor⟩
    refine ⟨q.num * factor, ?_⟩
    have hpow : (10 : ℚ) ^ k = q.den * factor := by exact_mod_cast hfactor
    rw [hpow, ← mul_assoc, Rat.mul_den_eq_num]
    push_cast
    rfl

theorem isLeast_decimalPlaces? {places : ℕ} (h : decimalPlaces? q.den = some places) :
    IsLeast {k : ℕ | ∃ n : ℤ, q * 10 ^ k = n} places := by
  refine ⟨(exists_mul_pow_eq_iff _).2 (dvd_pow_ten_of_decimalPlaces? h), ?_⟩
  intro k hk
  exact decimalPlaces?_le_of_dvd h ((exists_mul_pow_eq_iff k).1 hk)

/-- With a zero in the last place, a smaller power of ten would do. -/
theorem getLast?_ne_of_isLeast {whole places : List Char} (h : IsExpansion whole places |q|)
    (hleast : IsLeast {k : ℕ | ∃ n : ℤ, q * 10 ^ k = n} places.length) :
    places.getLast? ≠ some '0' := by
  intro hlast
  obtain ⟨front, rfl⟩ := List.getLast?_eq_some_iff.1 hlast
  have hvalue : |q| * 10 ^ front.length = (Nat.ofDigitChars 10 (whole ++ front) 0 : ℚ) := by
    rw [← h.value_eq, ← List.append_assoc, Nat.ofDigitChars_append, List.length_append,
      List.length_singleton, pow_succ]
    change ((10 * Nat.ofDigitChars 10 (whole ++ front) 0 : ℕ) : ℚ) / _ * _ = _
    push_cast
    field_simp
  have hfront : front.length ∈ {k : ℕ | ∃ n : ℤ, q * 10 ^ k = n} := by
    rcases abs_choice q with habs | habs
    · rw [habs] at hvalue
      exact ⟨Nat.ofDigitChars 10 (whole ++ front) 0, by exact_mod_cast hvalue⟩
    · rw [habs, neg_mul] at hvalue
      exact ⟨-Nat.ofDigitChars 10 (whole ++ front) 0, by push_cast; rw [← hvalue, neg_neg]⟩
  have hle := hleast.2 hfront
  rw [List.length_append, List.length_singleton] at hle
  omega

end Places

section Writing

theorem writesInteger (h : ∃ n : ℤ, q = n) : WritesInteger q (coefficientText q) := by
  rw [exists_eq_intCast_iff] at h
  refine ⟨_, coefficientText_of_den_eq_one h, isNaturalText_natText _, ?_⟩
  rw [ofDigitChars_natText, abs_eq_natAbs_div, h, Nat.cast_one, div_one]

theorem writesDecimal (h : ¬∃ n : ℤ, q = n) (hden : OnlyTwosAndFives q.den) :
    WritesDecimal q (coefficientText q) := by
  rw [exists_eq_intCast_iff] at h
  obtain ⟨places, hplaces⟩ := exists_decimalPlaces? q.pos hden
  have hdvd := dvd_pow_ten_of_decimalPlaces? hplaces
  have hpos : 0 < places := by
    apply Nat.pos_of_ne_zero
    rintro rfl
    exact h (Nat.dvd_one.1 hdvd)
  obtain ⟨whole, fraction, htext, rfl, hexpansion⟩ := exists_isExpansion hpos q.pos hdvd
  rw [← abs_eq_natAbs_div] at hexpansion
  have hleast := isLeast_decimalPlaces? hplaces
  refine ⟨whole, fraction, ?_, hexpansion, hleast, getLast?_ne_of_isLeast hexpansion hleast⟩
  rw [coefficientText_of_decimalPlaces? h hplaces, htext]

theorem writesQuotient (q : ℚ) :
    WritesQuotient q (signText q ++ (natText q.num.natAbs ++ '/' :: natText q.den)) :=
  ⟨_, _, rfl, isNaturalText_natText _, isNaturalText_natText _, ofDigitChars_natText _,
    ofDigitChars_natText _⟩

theorem writesFraction (h : ¬OnlyTwosAndFives q.den) : WritesFraction q (coefficientText q) := by
  refine ⟨_, ?_, writesQuotient q⟩
  rw [coefficientText_of_not_onlyTwosAndFives h]
  simp

theorem isExactText_coefficientText (q : ℚ) : IsExactText q (coefficientText q) := by
  have hpoint : ∀ text, IsIntegerText text → ¬IsDecimalText text := fun text hinteger hdecimal =>
    hinteger.not_mem rfl (by decide) hdecimal.point_mem
  have hparenthesis : ∀ text, IsIntegerText text ∨ IsDecimalText text → ¬IsFractionText text := by
    rintro text (hinteger | hdecimal) hfraction
    · exact hinteger.not_mem rfl (by decide) hfraction.parenthesis_mem
    · exact hdecimal.parenthesis_not_mem hfraction.parenthesis_mem
  have hinteger := fun h => isIntegerText_of_writes (writesInteger (q := q) h)
  have hdecimal := fun h hden => isDecimalText_of_writes h (writesDecimal (q := q) h hden)
  have hfraction := fun hden => isFractionText_of_writes (writesFraction (q := q) hden)
  have hexclusive := hpoint (coefficientText q)
  have hothers := hparenthesis (coefficientText q)
  refine ⟨?_, ?_, ?_, writesInteger, writesDecimal, fun _ => writesFraction⟩ <;> tauto

end Writing

section Reading

theorem sign_append_inj {sign other run rest : List Char} (hsign : IsSign sign)
    (hother : IsSign other) (hrun : '-' ∉ run) (hrest : '-' ∉ rest)
    (h : sign ++ run = other ++ rest) : sign = other ∧ run = rest := by
  rcases hsign with rfl | rfl <;> rcases hother with rfl | rfl
  · exact ⟨rfl, h⟩
  · have hmem : '-' ∈ run := by
      rw [← List.nil_append run, h]
      exact List.mem_cons_self
    exact absurd hmem hrun
  · have hmem : '-' ∈ rest := by
      rw [← List.nil_append rest, ← h]
      exact List.mem_cons_self
    exact absurd hmem hrest
  · exact ⟨rfl, List.append_cancel_left h⟩

theorem eq_of_signText_eq (hsign : signText q = signText r) (habs : |q| = |r|) : q = r := by
  by_cases hq : q < 0 <;> by_cases hr : r < 0
  · rwa [abs_of_neg hq, abs_of_neg hr, neg_inj] at habs
  · rw [signText_of_neg hq, signText_of_nonneg hr] at hsign
    cases hsign
  · rw [signText_of_nonneg hq, signText_of_neg hr] at hsign
    cases hsign
  · rwa [abs_of_nonneg (not_lt.1 hq), abs_of_nonneg (not_lt.1 hr)] at habs

/-- Behind the same sign, runs that denote the magnitudes tell the numbers apart. -/
theorem eq_of_signText_append_eq {run rest : List Char} (hrun : '-' ∉ run) (hrest : '-' ∉ rest)
    (h : signText q ++ run = signText r ++ rest) (habs : run = rest → |q| = |r|) : q = r := by
  obtain ⟨hsign, hsame⟩ := sign_append_inj (isSign_signText q) (isSign_signText r) hrun hrest h
  exact eq_of_signText_eq hsign (habs hsame)

theorem eq_of_writesInteger (hq : WritesInteger q text) (hr : WritesInteger r text) : q = r := by
  obtain ⟨digits, rfl, hdigits, hvalue⟩ := hq
  obtain ⟨others, htext, hothers, hvalue'⟩ := hr
  refine eq_of_signText_append_eq (hdigits.not_mem rfl) (hothers.not_mem rfl) htext ?_
  rintro rfl
  rw [← hvalue, hvalue']

theorem IsExpansion.minus_not_mem {whole places : List Char} {magnitude : ℚ}
    (h : IsExpansion whole places magnitude) : '-' ∉ whole ++ '.' :: places := by
  rw [List.mem_append, List.mem_cons, not_or, not_or]
  exact ⟨h.isNaturalText.not_mem rfl, by decide, not_mem_of_isDigit h.isDigit rfl⟩

theorem eq_of_writesDecimal (hq : WritesDecimal q text) (hr : WritesDecimal r text) : q = r := by
  obtain ⟨whole, places, rfl, hexpansion, -⟩ := hq
  obtain ⟨whole', places', htext, hexpansion', -⟩ := hr
  refine eq_of_signText_append_eq hexpansion.minus_not_mem hexpansion'.minus_not_mem htext ?_
  intro hsame
  obtain ⟨rfl, -, rfl⟩ := (List.append_cons_inj_of_notMem
    (hexpansion.isNaturalText.not_mem rfl)
    (not_mem_of_isDigit hexpansion.isDigit rfl)).1 hsame
  rw [← hexpansion.value_eq, hexpansion'.value_eq]

theorem IsNaturalText.minus_not_mem {numerator denominator : List Char}
    (hnumerator : IsNaturalText numerator) (hdenominator : IsNaturalText denominator) :
    '-' ∉ numerator ++ '/' :: denominator := by
  rw [List.mem_append, List.mem_cons, not_or, not_or]
  exact ⟨hnumerator.not_mem rfl, by decide, hdenominator.not_mem rfl⟩

theorem eq_of_writesQuotient (hq : WritesQuotient q text) (hr : WritesQuotient r text) :
    q = r := by
  obtain ⟨numerator, denominator, rfl, hnumerator, hdenominator, hnum, hden⟩ := hq
  obtain ⟨numerator', denominator', htext, hnumerator', hdenominator', hnum', hden'⟩ := hr
  refine eq_of_signText_append_eq (hnumerator.minus_not_mem hdenominator)
    (hnumerator'.minus_not_mem hdenominator') htext ?_
  intro hsame
  obtain ⟨rfl, -, rfl⟩ := (List.append_cons_inj_of_notMem (hnumerator.not_mem rfl)
    (hdenominator.not_mem rfl)).1 hsame
  rw [abs_eq_natAbs_div, abs_eq_natAbs_div, ← hnum, ← hden, hnum', hden']

theorem eq_of_writesFraction (hq : WritesFraction q text) (hr : WritesFraction r text) :
    q = r := by
  obtain ⟨quotient, rfl, hquotient⟩ := hq
  obtain ⟨other, htext, hother⟩ := hr
  obtain rfl : quotient = other := List.append_cancel_right (List.cons.inj htext).2
  exact eq_of_writesQuotient hquotient hother

/-- The form of a text tells the kind of its value, and among values of one kind the digits tell
the value. -/
theorem coefficientText_injective : Function.Injective coefficientText := by
  intro q r htext
  have hq := isExactText_coefficientText q
  have hr := isExactText_coefficientText r
  rw [← htext] at hr
  by_cases hinteger : ∃ n : ℤ, q = n
  · exact eq_of_writesInteger (hq.integer hinteger)
      (hr.integer (hr.integer_iff.1 (hq.integer_iff.2 hinteger)))
  by_cases hden : OnlyTwosAndFives q.den
  · obtain ⟨hinteger', hden'⟩ := hr.decimal_iff.1 (hq.decimal_iff.2 ⟨hinteger, hden⟩)
    exact eq_of_writesDecimal (hq.decimal hinteger hden) (hr.decimal hinteger' hden')
  · obtain ⟨hinteger', hden'⟩ := hr.fraction_iff.1 (hq.fraction_iff.2 ⟨hinteger, hden⟩)
    exact eq_of_writesFraction (hq.fraction hinteger hden) (hr.fraction hinteger' hden')

end Reading

section Plainly

variable {c : Char}

theorem writesPlainly_fractionText (q : ℚ) : WritesPlainly q (fractionText q) := by
  rw [fractionText, intText_num]
  refine ⟨fun hinteger => ?_, fun hfraction => ?_⟩
  · have hden := exists_eq_intCast_iff.1 hinteger
    rw [if_pos hden, ← coefficientText_of_den_eq_one hden]
    exact writesInteger hinteger
  · rw [if_neg (mt exists_eq_intCast_iff.2 hfraction), List.append_assoc]
    exact writesQuotient q

theorem writesPlainly_intText (n : ℤ) : WritesPlainly n (intText n) :=
  writesPlainly_fractionText n

/-- A text without decimals has nothing but a sign, digits and a slash. -/
theorem WritesPlainly.not_mem (h : WritesPlainly q text) (hdigit : c.isDigit = false)
    (hsign : c ≠ '-') (hslash : c ≠ '/') : c ∉ text := by
  by_cases hinteger : ∃ n : ℤ, q = n
  · exact (isIntegerText_of_writes (h.integer hinteger)).not_mem hdigit hsign
  · obtain ⟨numerator, denominator, rfl, hnumerator, hdenominator, -⟩ := h.quotient hinteger
    rw [List.mem_append, List.mem_append, List.mem_cons, not_or, not_or, not_or]
    exact ⟨(isSign_signText q).not_mem hsign, hnumerator.not_mem hdigit, hslash,
      hdenominator.not_mem hdigit⟩

theorem WritesPlainly.ne_nil (h : WritesPlainly q text) : text ≠ [] := by
  by_cases hinteger : ∃ n : ℤ, q = n
  · obtain ⟨digits, rfl, hdigits, -⟩ := h.integer hinteger
    exact List.append_ne_nil_of_right_ne_nil _ hdigits.ne_nil
  · obtain ⟨numerator, denominator, rfl, -⟩ := h.quotient hinteger
    simp

/-- A slash tells quotients from integers. -/
theorem WritesPlainly.slash_mem_iff (h : WritesPlainly q text) :
    '/' ∈ text ↔ ¬∃ n : ℤ, q = n := by
  by_cases hinteger : ∃ n : ℤ, q = n
  · have hslash := (isIntegerText_of_writes (h.integer hinteger)).not_mem (c := '/') rfl (by decide)
    exact iff_of_false hslash (not_not.2 hinteger)
  · obtain ⟨numerator, denominator, rfl, -⟩ := h.quotient hinteger
    exact iff_of_true (by simp) hinteger

theorem eq_of_writesPlainly (hq : WritesPlainly q text) (hr : WritesPlainly r text) : q = r := by
  have hkind : (∃ n : ℤ, q = n) ↔ ∃ n : ℤ, r = n :=
    not_iff_not.1 (hq.slash_mem_iff.symm.trans hr.slash_mem_iff)
  by_cases hinteger : ∃ n : ℤ, q = n
  · exact eq_of_writesInteger (hq.integer hinteger) (hr.integer (hkind.1 hinteger))
  · exact eq_of_writesQuotient (hq.quotient hinteger) (hr.quotient (mt hkind.2 hinteger))

end Plainly

/-- Every rational is written exactly, as an integer, as the shortest decimal or as a fraction in
lowest terms in parentheses, in the first of these forms that it has, and no two rationals have the
same text. -/
theorem coefficientText_isExact :
    (∀ q, IsExactText q (coefficientText q)) ∧ Function.Injective coefficientText :=
  ⟨isExactText_coefficientText, coefficientText_injective⟩

example : coefficientText (mkRat (-3) 160) = "-0.01875".toList := by decide +kernel

end ExactAlgebra.Rational
