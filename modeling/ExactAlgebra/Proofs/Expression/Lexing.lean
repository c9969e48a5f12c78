import ExactAlgebra.Expression.Token
import ExactAlgebra.Proofs.Rational.Decimal
import Mathlib.Data.List.TakeWhile

/-!
The tokens of a text. A text is lexed part by part: spaces, operators and parentheses, the variable,
and runs of digits and points. A part does not depend on what follows it, except that a number goes
on as long as it can.
-/

namespace ExactAlgebra

/-- A run of digits and points that stands for a value. -/
structure Numeral (run : List Char) (value : Rat) : Prop where
  numeric : ∀ c ∈ run, isNumeric c = true
  nonempty : run ≠ []
  value_eq : ∀ position, numberValue position run = .ok value

/-- A number that comes before ends here. -/
def EndsNumber (rest : List Char) : Prop := ∀ c ∈ rest.head?, isNumeric c = false

theorem isNumeric_of_isDigit {c : Char} (h : c.isDigit = true) : isNumeric c = true := by
  rw [isNumeric, h]
  rfl

theorem decimalValue_eq_div (whole fraction : List Char) :
    decimalValue whole fraction =
      (Nat.ofDigitChars 10 (whole ++ fraction) 0 : ℚ) / 10 ^ fraction.length := by
  rw [decimalValue, Rat.mkRat_eq_div]
  change _ / ((10 ^ fraction.length : Nat) : ℚ) = _
  push_cast
  rfl

theorem numberValue_of_digits {run : List Char} (h : ∀ c ∈ run, c.isDigit = true)
    (position : Nat) : numberValue position run = .ok (decimalValue run []) := by
  rw [numberValue, List.dropWhile_eq_nil_iff.2 h, List.takeWhile_eq_self_iff.2 h]

theorem numberValue_of_point {whole fraction : List Char} (hwhole : ∀ c ∈ whole, c.isDigit = true)
    (hfraction : ∀ c ∈ fraction, c.isDigit = true) (hnonempty : whole ≠ []) (position : Nat) :
    numberValue position (whole ++ '.' :: fraction) = .ok (decimalValue whole fraction) := by
  have htake : (whole ++ '.' :: fraction).takeWhile Char.isDigit = whole := by
    rw [List.takeWhile_append_of_pos hwhole]
    exact List.append_nil whole
  have hdrop : (whole ++ '.' :: fraction).dropWhile Char.isDigit = '.' :: fraction := by
    rw [List.dropWhile_append_of_pos hwhole]
    rfl
  rw [numberValue, htake, hdrop]
  simp only
  rw [List.dropWhile_eq_nil_iff.2 hfraction, List.takeWhile_eq_self_iff.2 hfraction,
    if_neg (fun hne => hne rfl), if_neg (fun hempty => hnonempty hempty.1)]

theorem numeral_natText (n : Nat) : Numeral (Rational.natText n) n := by
  refine ⟨?_, Rational.natText_ne_nil n, ?_⟩
  · intro c hc
    exact isNumeric_of_isDigit (Rational.isDigit_of_mem_natText hc)
  · intro position
    rw [numberValue_of_digits (fun c hc => Rational.isDigit_of_mem_natText hc),
      decimalValue_eq_div, List.append_nil, Rational.ofDigitChars_natText]
    simp

/-- Digits on both sides of a point are a number. -/
theorem numeral_of_isExpansion {whole fraction : List Char} {magnitude : ℚ}
    (h : Rational.IsExpansion whole fraction magnitude) :
    Numeral (whole ++ '.' :: fraction) magnitude := by
  have hwhole := h.isNaturalText
  refine ⟨fun c hc => ?_, List.append_ne_nil_of_left_ne_nil hwhole.ne_nil _, fun position => ?_⟩
  · rw [List.mem_append, List.mem_cons] at hc
    rcases hc with hleft | rfl | hright
    · exact isNumeric_of_isDigit (hwhole.isDigit c hleft)
    · rfl
    · exact isNumeric_of_isDigit (h.isDigit c hright)
  · rw [numberValue_of_point hwhole.isDigit h.isDigit hwhole.ne_nil, decimalValue_eq_div,
      h.value_eq]

/-- The magnitude of a coefficient whose expansion ends is a number. -/
theorem exists_numeral {q : Rat} (h : Rational.OnlyTwosAndFives q.den) :
    ∃ run, Rational.coefficientText q = Rational.signText q ++ run ∧ Numeral run |q| := by
  rw [Rational.abs_eq_natAbs_div]
  by_cases hden : q.den = 1
  · refine ⟨_, Rational.coefficientText_of_den_eq_one hden, ?_⟩
    rw [hden, Nat.cast_one, div_one]
    exact numeral_natText _
  · obtain ⟨places, hplaces⟩ := Rational.exists_decimalPlaces? q.pos h
    have hdvd := Rational.dvd_pow_ten_of_decimalPlaces? hplaces
    have hpos : 0 < places := by
      apply Nat.pos_of_ne_zero
      rintro rfl
      exact hden (Nat.dvd_one.1 hdvd)
    obtain ⟨whole, fraction, htext, -, hexpansion⟩ := Rational.exists_isExpansion hpos q.pos hdvd
    refine ⟨_, Rational.coefficientText_of_decimalPlaces? hden hplaces, ?_⟩
    rw [htext]
    exact numeral_of_isExpansion hexpansion

/-- The bytes of a text are those of its parts. -/
theorem byteLength_append (left right : List Char) :
    byteLength (left ++ right) = byteLength left + byteLength right := by
  induction left with
  | nil => exact (Nat.zero_add _).symm
  | cons c left ih =>
      rw [List.cons_append, byteLength, byteLength, ih, Nat.add_assoc]

namespace Vocabulary

variable {vocabulary : Vocabulary}

/-- The variable cannot be taken for a part of a number, an operator or the beginning of a constant,
and no constant begins with a slash. -/
structure Separates (vocabulary : Vocabulary) : Prop where
  reserved : vocabulary.symbol ∉ "0123456789. +-*%^()/".toList
  symbol_free : ∀ c ∈ vocabulary.constants, c.name.toList.head? ≠ some vocabulary.symbol
  slash_free : ∀ c ∈ vocabulary.constants, c.name.toList.head? ≠ some '/'

/-- A text has tokens of given kinds when a given rest follows it. -/
inductive Lexes (vocabulary : Vocabulary) (rest : List Char) : List Char → List Token → Prop
  | nil : Lexes vocabulary rest [] []
  | space {input : List Char} {kinds : List Token} (h : Lexes vocabulary rest input kinds) :
      Lexes vocabulary rest (' ' :: input) kinds
  | punctuation {c : Char} {token : Token} {input : List Char} {kinds : List Token}
      (htoken : punctuation? c = some token) (h : Lexes vocabulary rest input kinds) :
      Lexes vocabulary rest (c :: input) (token :: kinds)
  | symbol {input : List Char} {kinds : List Token} (h : Lexes vocabulary rest input kinds) :
      Lexes vocabulary rest (vocabulary.symbol :: input) (.symbol :: kinds)
  | number {run input : List Char} {value : Rat} {kinds : List Token}
      (hnumeral : Numeral run value) (hends : EndsNumber (input ++ rest))
      (h : Lexes vocabulary rest input kinds) :
      Lexes vocabulary rest (run ++ input) (.number value :: kinds)

/-- Characters that stand for a token by themselves. -/
theorem of_punctuation {c : Char} {token : Token} (h : punctuation? c = some token) :
    c ≠ ' ' ∧ isNumeric c = false ∧ c ≠ '/' := by
  unfold punctuation? at h
  split at h <;> first | decide | cases h

theorem isNumeric_symbol (h : vocabulary.Separates) : isNumeric vocabulary.symbol = false := by
  have hreserved := h.reserved
  generalize vocabulary.symbol = c at hreserved
  have hdigits : ∀ n : Fin 58, 48 ≤ n.val → Char.ofNat n.val ∈ "0123456789. +-*%^()/".toList := by
    decide
  rw [isNumeric, Bool.or_eq_false_iff]
  constructor
  · by_contra hdigit
    rw [Bool.not_eq_false, Char.isDigit_iff_toNat] at hdigit
    apply hreserved
    have hmem := hdigits ⟨c.toNat, Nat.lt_succ_of_le hdigit.2⟩ hdigit.1
    rwa [Char.ofNat_toNat] at hmem
  · rw [beq_eq_false_iff_ne]
    rintro rfl
    exact hreserved (by decide)

theorem punctuation?_symbol (h : vocabulary.Separates) :
    punctuation? vocabulary.symbol = none := by
  have hreserved := h.reserved
  generalize vocabulary.symbol = c at hreserved
  unfold punctuation?
  split <;> first | rfl | exact absurd (by decide) hreserved

/-- No constant is found where none begins with the first character. -/
theorem longestConstant?_eq_none {first : Char}
    (h : ∀ c ∈ vocabulary.constants, c.name.toList.head? ≠ some first) (rest : List Char) :
    vocabulary.longestConstant? (first :: rest) = none := by
  have hnamed := vocabulary.named
  rw [longestConstant?]
  generalize vocabulary.constants = constants at h hnamed
  induction constants with
  | nil => rfl
  | cons constant constants ih =>
      have hrest := ih (fun c hc => h c (List.mem_cons_of_mem _ hc))
        (fun c hc => hnamed c (List.mem_cons_of_mem _ hc))
      have hprefixed : constant.name.toList.isPrefixOf (first :: rest) = false := by
        have hfirst := h constant List.mem_cons_self
        have hname := hnamed constant List.mem_cons_self
        cases hlist : constant.name.toList with
        | nil => exact absurd (String.toList_eq_nil_iff.1 hlist) hname
        | cons a others =>
            have hne : a ≠ first := by
              rintro rfl
              exact hfirst (by rw [hlist]; rfl)
            simp [List.isPrefixOf, hne]
      rw [longestAmong, hrest]
      simp [hprefixed]

/-- One lexeme, and then the tokens of the rest. -/
theorem tokensFrom_of_lexeme {position : Nat} {c : Char} {rest : List Char} {next : Lexeme}
    (h : vocabulary.lexeme position c rest = .ok next) :
    vocabulary.tokensFrom position (c :: rest) =
      (vocabulary.tokensFrom (position + byteLength (c :: rest.take next.following))
        (rest.drop next.following)).map
        fun tokens => next.token.toList.map (⟨·, position⟩) ++ tokens := by
  rw [tokensFrom, h]
  obtain ⟨token, following⟩ := next
  change (vocabulary.tokensFrom (position + byteLength (c :: rest.take following))
    (rest.drop following) >>= _) = _
  cases vocabulary.tokensFrom (position + byteLength (c :: rest.take following))
      (rest.drop following) with
  | error error => rfl
  | ok tokens => cases token <;> rfl

theorem lexeme_punctuation {c : Char} {token : Token} (htoken : punctuation? c = some token)
    (position : Nat) (rest : List Char) :
    vocabulary.lexeme position c rest = .ok ⟨some token, 0⟩ := by
  obtain ⟨hspace, hnumeric, _⟩ := of_punctuation htoken
  rw [lexeme, if_neg hspace, if_neg (by simp [hnumeric]), htoken]

theorem symbol_ne_of_mem (h : vocabulary.Separates) {c : Char}
    (hc : c ∈ "0123456789. +-*%^()/".toList) : vocabulary.symbol ≠ c := by
  rintro rfl
  exact h.reserved hc

theorem lexeme_symbol (h : vocabulary.Separates) (position : Nat) (rest : List Char) :
    vocabulary.lexeme position vocabulary.symbol rest = .ok ⟨some .symbol, 0⟩ := by
  rw [lexeme, if_neg (symbol_ne_of_mem h (by decide)), if_neg (by simp [isNumeric_symbol h]),
    punctuation?_symbol h, longestConstant?_eq_none h.symbol_free]
  exact if_pos rfl

theorem lexeme_slash (h : vocabulary.Separates) (position : Nat) (rest : List Char) :
    vocabulary.lexeme position '/' rest = .error (.unknownCharacter '/' position) := by
  have hpunctuation : punctuation? '/' = none := rfl
  have hstarts : vocabulary.startsConstant '/' = false := by
    rw [startsConstant, List.any_eq_false]
    intro constant hconstant
    rw [beq_iff_eq]
    exact h.slash_free constant hconstant
  rw [lexeme, if_neg (by decide), if_neg (by decide), hpunctuation,
    longestConstant?_eq_none h.slash_free]
  simp only
  rw [if_neg (symbol_ne_of_mem h (by decide)).symm, hstarts]
  rfl

theorem takeWhile_isNumeric_append {run rest : List Char} (hrun : ∀ c ∈ run, isNumeric c = true)
    (hends : EndsNumber rest) : (run ++ rest).takeWhile isNumeric = run := by
  rw [List.takeWhile_append_of_pos hrun]
  cases rest with
  | nil => exact List.append_nil run
  | cons c rest =>
      have hc : ¬ isNumeric c = true := by
        rw [hends c rfl]
        decide
      rw [List.takeWhile_cons_of_neg hc, List.append_nil]

theorem lexeme_numeral {c : Char} {run rest : List Char} {value : Rat}
    (h : Numeral (c :: run) value) (hends : EndsNumber rest) (position : Nat) :
    vocabulary.lexeme position c (run ++ rest) = .ok ⟨some (.number value), run.length⟩ := by
  have hc := h.numeric c List.mem_cons_self
  have hspace : c ≠ ' ' := by
    rintro rfl
    cases hc
  have hrun := takeWhile_isNumeric_append
    (fun other hother => h.numeric other (List.mem_cons_of_mem _ hother)) hends
  rw [lexeme, if_neg hspace, if_pos hc, hrun]
  simp only [h.value_eq]
  rfl

/-- From a position on, a text has tokens of given kinds, and then come those of the rest. -/
def TokensPrecede (vocabulary : Vocabulary) (position : Nat) (input rest : List Char)
    (kinds : List Token) : Prop :=
  ∃ placed : List PlacedToken, placed.map PlacedToken.token = kinds ∧
    vocabulary.tokensFrom position (input ++ rest) =
      (vocabulary.tokensFrom (position + byteLength input) rest).map (placed ++ ·)

theorem tokensPrecede_nil (position : Nat) (rest : List Char) :
    vocabulary.TokensPrecede position [] rest [] := by
  refine ⟨[], rfl, ?_⟩
  change vocabulary.tokensFrom position rest =
    (vocabulary.tokensFrom position rest).map (fun tokens => tokens)
  cases vocabulary.tokensFrom position rest <;> rfl

theorem tokensPrecede_lexeme {position : Nat} {c : Char} {run input rest : List Char}
    {token : Option Token} {kinds : List Token}
    (hlexeme : vocabulary.lexeme position c (run ++ (input ++ rest)) = .ok ⟨token, run.length⟩)
    (h : vocabulary.TokensPrecede (position + byteLength (c :: run)) input rest kinds) :
    vocabulary.TokensPrecede position (c :: (run ++ input)) rest (token.toList ++ kinds) := by
  obtain ⟨placed, rfl, htokens⟩ := h
  refine ⟨token.toList.map (⟨·, position⟩) ++ placed, ?_, ?_⟩
  · cases token <;> rfl
  · have hlength : position + byteLength (c :: run) + byteLength input =
        position + byteLength (c :: (run ++ input)) := by
      rw [Nat.add_assoc, ← byteLength_append, List.cons_append]
    rw [List.cons_append, List.append_assoc, tokensFrom_of_lexeme hlexeme, List.take_left,
      List.drop_left, htokens, hlength]
    cases vocabulary.tokensFrom (position + byteLength (c :: (run ++ input))) rest with
    | error error => rfl
    | ok tokens =>
        exact congrArg Except.ok (List.append_assoc _ _ _).symm

/-- What a text lexes to is read from every position. -/
theorem tokensPrecede_of_lexes {rest input : List Char} {kinds : List Token}
    (hseparates : vocabulary.Separates) (h : Lexes vocabulary rest input kinds)
    (position : Nat) : vocabulary.TokensPrecede position input rest kinds := by
  induction h generalizing position with
  | nil => exact tokensPrecede_nil position rest
  | @space input kinds h ih =>
      have hlexeme : vocabulary.lexeme position ' ' ([] ++ (input ++ rest)) = .ok ⟨none, 0⟩ := rfl
      exact tokensPrecede_lexeme hlexeme (ih _)
  | @punctuation c token input kinds htoken h ih =>
      have hlexeme : vocabulary.lexeme position c ([] ++ (input ++ rest)) =
          .ok ⟨some token, 0⟩ := lexeme_punctuation htoken position _
      exact tokensPrecede_lexeme hlexeme (ih _)
  | @symbol input kinds h ih =>
      have hlexeme := lexeme_symbol hseparates position ([] ++ (input ++ rest))
      exact tokensPrecede_lexeme hlexeme (ih _)
  | @number run input value kinds hnumeral hends h ih =>
      cases run with
      | nil => exact absurd rfl hnumeral.nonempty
      | cons c run =>
          have hlexeme : vocabulary.lexeme position c (run ++ (input ++ rest)) =
              .ok ⟨some (.number value), run.length⟩ := lexeme_numeral hnumeral hends position
          exact tokensPrecede_lexeme hlexeme (ih _)

theorem exists_tokens_of_lexes {input : List Char} {kinds : List Token}
    (hseparates : vocabulary.Separates) (h : Lexes vocabulary [] input kinds) :
    ∃ placed : List PlacedToken, placed.map PlacedToken.token = kinds ∧
      vocabulary.tokens input = .ok placed := by
  obtain ⟨placed, hkinds, htokens⟩ := tokensPrecede_of_lexes hseparates h 0
  refine ⟨placed, hkinds, ?_⟩
  rw [List.append_nil, tokensFrom] at htokens
  rw [tokens, htokens]
  change Except.ok (placed ++ []) = _
  rw [List.append_nil]

/-- A text that lexes up to a slash fails there. -/
theorem tokens_slash {input after : List Char} {kinds : List Token}
    (hseparates : vocabulary.Separates) (h : Lexes vocabulary ('/' :: after) input kinds) :
    vocabulary.tokens (input ++ '/' :: after) =
      .error (.unknownCharacter '/' (byteLength input)) := by
  obtain ⟨placed, _, htokens⟩ := tokensPrecede_of_lexes hseparates h 0
  rw [tokens, htokens, tokensFrom, lexeme_slash hseparates, Nat.zero_add]
  rfl

theorem slash_not_mem_of_lexes {rest input : List Char} {kinds : List Token}
    (hseparates : vocabulary.Separates) (h : Lexes vocabulary rest input kinds) :
    '/' ∉ input := by
  induction h with
  | nil => exact List.not_mem_nil
  | space h ih => exact List.not_mem_cons_of_ne_of_not_mem (by decide) ih
  | punctuation htoken h ih =>
      exact List.not_mem_cons_of_ne_of_not_mem (of_punctuation htoken).2.2.symm ih
  | symbol h ih =>
      exact List.not_mem_cons_of_ne_of_not_mem
        (symbol_ne_of_mem hseparates (by decide)).symm ih
  | number hnumeral hends h ih =>
      intro hmem
      rcases List.mem_append.1 hmem with hrun | hinput
      · cases hnumeral.numeric _ hrun
      · exact ih hinput

end Vocabulary

end ExactAlgebra
