import ExactAlgebra.Rational.Numeral
import Mathlib.Algebra.Order.Ring.Rat
import Mathlib.Data.Nat.Prime.Basic
import Mathlib.Tactic.Positivity

/-!
The written forms of numbers. The expansion of a fraction ends exactly if its denominator has no
prime factors but two and five, and then the places that are written hold all of it.
-/

namespace ExactAlgebra.Rational

/-- A number has no prime factors but two and five. -/
def OnlyTwosAndFives (n : Nat) : Prop := ∀ r : Nat, r.Prime → r ∣ n → r = 2 ∨ r = 5

/-- The places are counted for a product of twos and fives, of which there are at most as many. -/
theorem exists_eq_of_decimalPlaces? {denominator places : Nat}
    (h : decimalPlaces? denominator = some places) :
    ∃ twos fives, denominator = 2 ^ twos * 5 ^ fives ∧ places = max twos fives := by
  simp only [decimalPlaces?] at h
  split at h
  · rename_i hrest
    cases h
    have htwos := Integer.pow_mul_divideOut 2 denominator
    have hfives := Integer.pow_mul_divideOut 5 (Integer.divideOut 2 denominator).2
    rw [hrest, Nat.mul_one] at hfives
    refine ⟨_, _, ?_, rfl⟩
    conv_lhs => rw [← htwos, ← hfives]
    rfl
  · cases h

theorem dvd_pow_ten_of_decimalPlaces? {denominator places : Nat}
    (h : decimalPlaces? denominator = some places) : denominator ∣ 10 ^ places := by
  obtain ⟨twos, fives, rfl, rfl⟩ := exists_eq_of_decimalPlaces? h
  have hten : 10 ^ max twos fives = 2 ^ max twos fives * 5 ^ max twos fives := Nat.mul_pow 2 5 _
  rw [hten]
  exact Nat.mul_dvd_mul (Nat.pow_dvd_pow 2 (Nat.le_max_left _ _))
    (Nat.pow_dvd_pow 5 (Nat.le_max_right _ _))

/-- A power of ten that the denominator divides has as many twos and as many fives. -/
theorem decimalPlaces?_le_of_dvd {denominator places exponent : Nat}
    (h : decimalPlaces? denominator = some places) (hdvd : denominator ∣ 10 ^ exponent) :
    places ≤ exponent := by
  obtain ⟨twos, fives, rfl, rfl⟩ := exists_eq_of_decimalPlaces? h
  have hten : 10 ^ exponent = 2 ^ exponent * 5 ^ exponent := Nat.mul_pow 2 5 exponent
  rw [hten] at hdvd
  have hcoprime : ∀ m n : Nat, (2 ^ m).Coprime (5 ^ n) := fun m n =>
    Nat.Coprime.pow m n (by decide)
  have htwos : 2 ^ twos ∣ 2 ^ exponent :=
    (hcoprime twos exponent).dvd_of_dvd_mul_right ((Dvd.intro _ rfl).trans hdvd)
  have hfives : 5 ^ fives ∣ 5 ^ exponent :=
    (hcoprime exponent fives).symm.dvd_of_dvd_mul_left ((Dvd.intro_left _ rfl).trans hdvd)
  exact max_le ((Nat.pow_dvd_pow_iff_le_right (by decide)).1 htwos)
    ((Nat.pow_dvd_pow_iff_le_right (by decide)).1 hfives)

theorem onlyTwosAndFives_of_dvd_pow_ten {n places : Nat} (h : n ∣ 10 ^ places) :
    OnlyTwosAndFives n := by
  intro r hprime hdvd
  have hten : r ∣ 2 * 5 := hprime.dvd_of_dvd_pow (hdvd.trans h)
  rcases hprime.dvd_mul.1 hten with htwo | hfive
  · exact Or.inl ((Nat.prime_dvd_prime_iff_eq hprime Nat.prime_two).1 htwo)
  · exact Or.inr ((Nat.prime_dvd_prime_iff_eq hprime Nat.prime_five).1 hfive)

/-- What is left when all twos and fives are taken out has another prime factor, if it is not
one. -/
theorem exists_decimalPlaces? {denominator : Nat} (hpos : 0 < denominator)
    (h : OnlyTwosAndFives denominator) : ∃ places, decimalPlaces? denominator = some places := by
  have htwos := Integer.pow_mul_divideOut 2 denominator
  have hodd := Integer.divideOut_snd_mod_ne_zero (d := 2) (by decide) hpos
  have hcofactor := Integer.divideOut_snd_pos (d := 2) hpos
  simp only [decimalPlaces?]
  generalize Integer.divideOut 2 denominator = twos at htwos hodd hcofactor ⊢
  have hfives := Integer.pow_mul_divideOut 5 twos.2
  have hrest := Integer.divideOut_snd_mod_ne_zero (d := 5) (by decide) hcofactor
  generalize Integer.divideOut 5 twos.2 = fives at hfives hrest ⊢
  refine ⟨max twos.1 fives.1, if_pos ?_⟩
  by_contra hne
  obtain ⟨r, hprime, hdvd⟩ := Nat.exists_prime_and_dvd hne
  have hdvdTwos : r ∣ twos.2 := by
    rw [← hfives]
    exact Dvd.dvd.mul_left hdvd _
  have hdvdAll : r ∣ denominator := by
    rw [← htwos]
    exact Dvd.dvd.mul_left hdvdTwos _
  rcases h r hprime hdvdAll with rfl | rfl
  · exact hodd (Nat.mod_eq_zero_of_dvd hdvdTwos)
  · exact hrest (Nat.mod_eq_zero_of_dvd hdvd)

theorem decimalPlaces?_eq_none {denominator : Nat} (h : ¬ OnlyTwosAndFives denominator) :
    decimalPlaces? denominator = none := by
  cases hplaces : decimalPlaces? denominator with
  | none => rfl
  | some places =>
      exact absurd (onlyTwosAndFives_of_dvd_pow_ten (dvd_pow_ten_of_decimalPlaces? hplaces)) h

/-- The sign that is written before the magnitude. -/
def signText (q : Rat) : List Char := if q < 0 then ['-'] else []

theorem signText_of_neg {q : Rat} (h : q < 0) : signText q = ['-'] := if_pos h

theorem signText_of_nonneg {q : Rat} (h : ¬ q < 0) : signText q = [] := if_neg h

theorem intText_num (q : Rat) : intText q.num = signText q ++ natText q.num.natAbs := by
  by_cases h : q < 0
  · rw [signText_of_neg h, intText, if_pos (Rat.num_neg.2 h)]
    rfl
  · rw [signText_of_nonneg h, intText, if_neg (fun hnum => h (Rat.num_neg.1 hnum))]
    rfl

theorem coefficientText_of_den_eq_one {q : Rat} (h : q.den = 1) :
    coefficientText q = signText q ++ natText q.num.natAbs := by
  rw [coefficientText, if_pos h, intText_num]

theorem coefficientText_of_decimalPlaces? {q : Rat} {places : Nat} (hden : q.den ≠ 1)
    (h : decimalPlaces? q.den = some places) :
    coefficientText q = signText q ++ decimalText places q.num.natAbs q.den := by
  rw [coefficientText, if_neg hden, h]
  by_cases hneg : q < 0
  · rw [signText_of_neg hneg]
    exact if_pos (Rat.num_neg.2 hneg)
  · rw [signText_of_nonneg hneg]
    exact if_neg (fun hnum => hneg (Rat.num_neg.1 hnum))

theorem coefficientText_of_not_onlyTwosAndFives {q : Rat} (h : ¬ OnlyTwosAndFives q.den) :
    coefficientText q =
      '(' :: (signText q ++ (natText q.num.natAbs ++ '/' :: (natText q.den ++ [')']))) := by
  have hden : q.den ≠ 1 := by
    intro hone
    apply h
    rw [hone]
    exact onlyTwosAndFives_of_dvd_pow_ten (Nat.one_dvd (10 ^ 0))
  rw [coefficientText, if_neg hden, decimalPlaces?_eq_none h]
  change '(' :: fractionText q ++ [')'] = _
  rw [fractionText, if_neg hden, intText_num]
  simp

theorem natText_ne_nil (n : Nat) : natText n ≠ [] := Nat.toDigits_ne_nil

theorem isDigit_of_mem_natText {n : Nat} {c : Char} (h : c ∈ natText n) : c.isDigit = true :=
  Nat.isDigit_of_mem_toDigits (by decide) (by decide) h

/-- The form of a natural number: decimal digits, at least one, and no zero in front that could be
left out. -/
structure IsNaturalText (digits : List Char) : Prop where
  ne_nil : digits ≠ []
  isDigit : ∀ c ∈ digits, c.isDigit = true
  eq_zero : digits.head? = some '0' → digits = ['0']

theorem ofDigitChars_natText (n : Nat) : Nat.ofDigitChars 10 (natText n) 0 = n :=
  Nat.ofDigitChars_ten_toDigits

theorem eq_zero_of_head?_natText {n : Nat} (h : (natText n).head? = some '0') : n = 0 := by
  induction n using Nat.strongRecOn with
  | ind n ih =>
      by_cases hsmall : n < 10
      · rw [natText, Nat.toDigits_of_lt_base hsmall, List.head?_cons, Option.some_inj] at h
        rw [← ofDigitChars_natText n, natText, Nat.toDigits_of_lt_base hsmall, h]
        rfl
      · rw [natText, Nat.toDigits_of_base_le (by decide) (by omega),
          List.head?_append_of_ne_nil _ Nat.toDigits_ne_nil] at h
        have hzero := ih (n / 10) (by omega) h
        omega

theorem isNaturalText_natText (n : Nat) : IsNaturalText (natText n) := by
  refine ⟨natText_ne_nil n, fun c hc => isDigit_of_mem_natText hc, fun hhead => ?_⟩
  rw [eq_zero_of_head?_natText hhead]
  exact Nat.toDigits_zero 10

theorem isDigit_of_mem_paddedText {width n : Nat} {c : Char} (h : c ∈ paddedText width n) :
    c.isDigit = true := by
  rw [paddedText, List.leftpad, List.mem_append] at h
  rcases h with hzero | hdigit
  · rw [List.eq_of_mem_replicate hzero]
    decide
  · exact isDigit_of_mem_natText hdigit

theorem ofDigitChars_paddedText (width n : Nat) :
    Nat.ofDigitChars 10 (paddedText width n) 0 = n := by
  rw [paddedText, List.leftpad, Nat.ofDigitChars_append, Nat.ofDigitChars_replicate_zero,
    Nat.mul_zero, ofDigitChars_natText]

theorem length_paddedText {width n : Nat} (hwidth : 0 < width) (h : n < 10 ^ width) :
    (paddedText width n).length = width := by
  have hle : (natText n).length ≤ width :=
    (Nat.length_toDigits_le_iff (by decide) hwidth).2 h
  rw [paddedText, List.length_leftpad, Nat.max_eq_left hle]

theorem paddedText_one (n : Nat) : paddedText 1 n = natText n := by
  have hlength : 0 < (natText n).length := Nat.length_toDigits_pos
  rw [paddedText, List.leftpad, Nat.sub_eq_zero_of_le hlength]
  rfl

/-- The last digit stands behind those of the tenth. -/
theorem paddedText_succ {width : Nat} (hwidth : 0 < width) (n : Nat) :
    paddedText (width + 1) n = paddedText width (n / 10) ++ [(n % 10).digitChar] := by
  by_cases hsmall : n < 10
  · have hlast : List.replicate width '0' = List.replicate (width - 1) '0' ++ ['0'] := by
      rw [← List.replicate_succ', Nat.sub_add_cancel hwidth]
    rw [paddedText, paddedText, natText, natText, Nat.toDigits_of_lt_base hsmall,
      Nat.div_eq_of_lt hsmall, Nat.mod_eq_of_lt hsmall, Nat.toDigits_zero, List.leftpad,
      List.leftpad]
    exact congrArg (· ++ _) hlast
  · rw [paddedText, paddedText, natText, natText,
      Nat.toDigits_of_base_le (by decide) (Nat.le_of_not_lt hsmall), List.leftpad, List.leftpad,
      List.length_append, List.length_singleton, Nat.add_sub_add_right, List.append_assoc]

/-- Digits are the same if they are divided before some last places or written all together, filled
up to one more than there are places. -/
theorem natText_append_paddedText {places : Nat} (hplaces : 0 < places) (n : Nat) :
    natText (n / 10 ^ places) ++ paddedText places (n % 10 ^ places) =
      paddedText (places + 1) n := by
  induction places, hplaces using Nat.le_induction generalizing n with
  | base =>
      have hlast : natText (n % 10) = [(n % 10).digitChar] :=
        Nat.toDigits_of_lt_base (Nat.mod_lt n (by decide))
      rw [paddedText_succ Nat.one_pos, paddedText_one, pow_one, paddedText_one, hlast]
  | succ places hplaces ih =>
      have hquotient : n / 10 ^ (places + 1) = n / 10 / 10 ^ places := by
        rw [pow_succ', Nat.div_div_eq_div_mul]
      have hrest : n % 10 ^ (places + 1) / 10 = n / 10 % 10 ^ places := by
        rw [pow_succ', Nat.mod_mul_right_div_self]
      have hdigit : n % 10 ^ (places + 1) % 10 = n % 10 :=
        Nat.mod_mod_of_dvd n (Dvd.intro_left _ rfl)
      rw [paddedText_succ hplaces, hrest, hdigit, paddedText_succ (Nat.succ_pos places), ← ih,
        hquotient, List.append_assoc]

/-- A number is read back from its digits above and below a power of ten. -/
theorem ofDigitChars_split {places : Nat} (hplaces : 0 < places) (n : Nat) :
    Nat.ofDigitChars 10
      (natText (n / 10 ^ places) ++ paddedText places (n % 10 ^ places)) 0 = n := by
  rw [natText_append_paddedText hplaces, ofDigitChars_paddedText]

/-- The decimal is the scaled magnitude with its digits, filled up to one more than there are
places, divided by a point before the places. -/
theorem decimalText_eq_split {places : Nat} (hplaces : 0 < places) (numerator denominator : Nat) :
    let digits := paddedText (places + 1) (numerator * 10 ^ places / denominator)
    decimalText places numerator denominator =
      digits.take (digits.length - places) ++ '.' :: digits.drop (digits.length - places) := by
  have hlength := length_paddedText hplaces
    (Nat.mod_lt (numerator * 10 ^ places / denominator) (Nat.pow_pos (by decide)))
  have hwhole : ∀ whole fraction : List Char, fraction.length = places →
      (whole ++ fraction).length - places = whole.length := by
    intro whole fraction hfraction
    rw [List.length_append, hfraction, Nat.add_sub_cancel]
  simp only [← natText_append_paddedText hplaces, hwhole _ _ hlength, List.take_left,
    List.drop_left]
  rfl

/-- With enough places the scaled magnitude is an integer. -/
theorem mkRat_scaled {places numerator denominator : Nat} (hpos : 0 < denominator)
    (h : denominator ∣ 10 ^ places) :
    mkRat ((numerator * 10 ^ places / denominator : Nat) : Int) (10 ^ places) =
      (numerator : ℚ) / denominator := by
  have hexact : numerator * 10 ^ places / denominator * denominator = numerator * 10 ^ places :=
    Nat.div_mul_cancel (Dvd.dvd.mul_left h numerator)
  have hcast : ((numerator * 10 ^ places / denominator : Nat) : ℚ) * denominator =
      numerator * 10 ^ places := by
    exact_mod_cast hexact
  have hne : (denominator : ℚ) ≠ 0 := by
    exact_mod_cast hpos.ne'
  rw [Rat.mkRat_eq_div, div_eq_div_iff (by positivity) hne]
  push_cast
  exact hcast

/-- Digits before and behind a point, which stand for a magnitude. -/
structure IsExpansion (whole fraction : List Char) (magnitude : ℚ) : Prop where
  isNaturalText : IsNaturalText whole
  isDigit : ∀ c ∈ fraction, c.isDigit = true
  value_eq : (Nat.ofDigitChars 10 (whole ++ fraction) 0 : ℚ) / 10 ^ fraction.length = magnitude

/-- With enough places the digits stand for the exact magnitude. -/
theorem exists_isExpansion {places numerator denominator : Nat} (hplaces : 0 < places)
    (hpos : 0 < denominator) (h : denominator ∣ 10 ^ places) :
    ∃ whole fraction, decimalText places numerator denominator = whole ++ '.' :: fraction ∧
      fraction.length = places ∧
        IsExpansion whole fraction ((numerator : ℚ) / denominator) := by
  have hlength := length_paddedText hplaces
    (Nat.mod_lt (numerator * 10 ^ places / denominator) (Nat.pow_pos (by decide)))
  refine ⟨_, _, rfl, hlength, isNaturalText_natText _,
    fun c hc => isDigit_of_mem_paddedText hc, ?_⟩
  change (Nat.ofDigitChars 10
    (natText (numerator * 10 ^ places / denominator / 10 ^ places) ++
      paddedText places (numerator * 10 ^ places / denominator % 10 ^ places)) 0 : ℚ) / _ = _
  rw [ofDigitChars_split hplaces]
  refine Eq.trans ?_ (mkRat_scaled hpos h)
  rw [Rat.mkRat_eq_div]
  push_cast
  exact congrArg (_ / (10 : ℚ) ^ ·) hlength

theorem abs_eq_natAbs_div (q : Rat) : |q| = (q.num.natAbs : ℚ) / q.den := by
  rw [Rat.abs_def, Rat.divInt_eq_div]
  rfl

end ExactAlgebra.Rational
