import ExactAlgebra.Proofs.Expression.Grammar
import ExactAlgebra.Proofs.Expression.Lexing
import ExactAlgebra.SparsePolynomial.Printer

/-!
The written form of a polynomial as an expression. As long as the expansions of the coefficients
end, its tokens are a sum of signed terms; the first coefficient whose expansion does not end
brings the first slash, and the text lexes up to there.
-/

namespace ExactAlgebra.SparsePolynomial

open Rational (OnlyTwosAndFives signText natText coefficientText)

def powerTokens (exponent : Nat) : List Token :=
  match exponent with
  | 0 => []
  | 1 => [.symbol]
  | _ => [.symbol, .caret, .number exponent]

/-- The number of signs before a coefficient. -/
def signs (q : Rat) : Nat := if q < 0 then 1 else 0

def leadingTokens (t : Term) : List Token :=
  List.replicate (signs t.coefficient) .minus ++
    .number |t.coefficient| :: powerTokens t.exponent

def followingTokens (t : Term) : List Token :=
  (if t.coefficient < 0 then .minus else .plus) ::
    leadingTokens ⟨|t.coefficient|, t.exponent⟩

theorem followingText_eq (symbol : Char) (t : Term) :
    followingText symbol t =
      ' ' :: (if t.coefficient < 0 then '-' else '+') :: ' ' ::
        leadingText symbol ⟨|t.coefficient|, t.exponent⟩ := by
  rw [followingText]
  by_cases h : t.coefficient < 0
  · rw [if_pos h, if_pos h, abs_of_neg h]
    rfl
  · rw [if_neg h, if_neg h, abs_of_nonneg (not_lt.1 h)]
    rfl

section Lexing

variable {vocabulary : Vocabulary} {rest input : List Char} {kinds : List Token}

open Vocabulary (Lexes)

theorem lexes_powerText (h : Lexes vocabulary rest input kinds)
    (hends : EndsNumber (input ++ rest)) (exponent : Nat) :
    Lexes vocabulary rest (powerText vocabulary.symbol exponent ++ input)
      (powerTokens exponent ++ kinds) := by
  match exponent with
  | 0 => exact h
  | 1 => exact .symbol h
  | n + 2 => exact .symbol (.punctuation rfl (.number (numeral_natText (n + 2)) hends h))

theorem endsNumber_powerText (hseparates : vocabulary.Separates)
    (hends : EndsNumber (input ++ rest)) (exponent : Nat) :
    EndsNumber (powerText vocabulary.symbol exponent ++ input ++ rest) := by
  match exponent with
  | 0 => exact hends
  | 1 | n + 2 =>
      intro c hc
      cases hc
      exact Vocabulary.isNumeric_symbol hseparates

theorem lexes_signText (h : Lexes vocabulary rest input kinds) (q : Rat) :
    Lexes vocabulary rest (signText q ++ input)
      (List.replicate (signs q) .minus ++ kinds) := by
  by_cases hneg : q < 0
  · rw [Rational.signText_of_neg hneg, signs, if_pos hneg]
    exact .punctuation rfl h
  · rw [Rational.signText_of_nonneg hneg, signs, if_neg hneg]
    exact h

theorem lexes_leadingText (hseparates : vocabulary.Separates)
    (h : Lexes vocabulary rest input kinds) (hends : EndsNumber (input ++ rest)) {t : Term}
    (ht : OnlyTwosAndFives t.coefficient.den) :
    Lexes vocabulary rest (leadingText vocabulary.symbol t ++ input)
      (leadingTokens t ++ kinds) := by
  obtain ⟨run, htext, hnumeral⟩ := exists_numeral ht
  have hpower := lexes_powerText h hends t.exponent
  have hnumber := Lexes.number hnumeral (endsNumber_powerText hseparates hends t.exponent) hpower
  have hsigned := lexes_signText hnumber t.coefficient
  rw [leadingText, htext, leadingTokens]
  simpa using hsigned

theorem lexes_followingSign (h : Lexes vocabulary rest input kinds) (q : Rat) :
    Lexes vocabulary rest (' ' :: (if q < 0 then '-' else '+') :: ' ' :: input)
      ((if q < 0 then .minus else .plus) :: kinds) := by
  apply Lexes.space
  by_cases hneg : q < 0
  · rw [if_pos hneg, if_pos hneg]
    exact .punctuation rfl (.space h)
  · rw [if_neg hneg, if_neg hneg]
    exact .punctuation rfl (.space h)

/-- Further terms end a number that comes before them. -/
theorem endsNumber_followingTexts (symbol : Char) (list : List Term) :
    EndsNumber (list.flatMap (followingText symbol)) := by
  cases list with
  | nil =>
      intro c hc
      cases hc
  | cons t list =>
      rw [List.flatMap_cons, followingText_eq]
      intro c hc
      cases hc
      rfl

theorem lexes_followingText (hseparates : vocabulary.Separates)
    (h : Lexes vocabulary rest input kinds) (hends : EndsNumber (input ++ rest)) {t : Term}
    (ht : OnlyTwosAndFives t.coefficient.den) :
    Lexes vocabulary rest (followingText vocabulary.symbol t ++ input)
      (followingTokens t ++ kinds) := by
  have habs : OnlyTwosAndFives |t.coefficient|.den := by
    rwa [Rat.den_abs_eq_den]
  have hleading := lexes_leadingText hseparates h hends
    (t := ⟨|t.coefficient|, t.exponent⟩) habs
  have hsigned := lexes_followingSign hleading t.coefficient
  rw [followingText_eq, followingTokens]
  simpa using hsigned

theorem lexes_followingTexts (hseparates : vocabulary.Separates) {list : List Term}
    (hlist : ∀ t ∈ list, OnlyTwosAndFives t.coefficient.den) :
    Lexes vocabulary [] (list.flatMap (followingText vocabulary.symbol))
      (list.flatMap followingTokens) := by
  induction list with
  | nil => exact .nil
  | cons t list ih =>
      have hrest := ih (fun u hu => hlist u (List.mem_cons_of_mem t hu))
      have hends := endsNumber_followingTexts vocabulary.symbol list
      rw [List.flatMap_cons, List.flatMap_cons]
      apply lexes_followingText hseparates hrest _ (hlist t List.mem_cons_self)
      rwa [List.append_nil]

/-- The written form lexes to a signed sum if the expansions of all coefficients end. -/
theorem lexes_text (hseparates : vocabulary.Separates) {p : SparsePolynomial}
    (hsymbol : vocabulary.symbol = p.symbol)
    (h : ∀ t ∈ p.terms.stored, OnlyTwosAndFives t.coefficient.den) :
    Lexes vocabulary [] p.text
      (leadingTokens p.terms.leading ++ p.terms.tail.list.flatMap followingTokens) := by
  rw [Terms.stored_eq_leading_cons] at h
  have hfollowing := lexes_followingTexts hseparates
    (fun t ht => h t (List.mem_cons_of_mem _ ht))
  have hends := endsNumber_followingTexts vocabulary.symbol p.terms.tail.list
  rw [text, ← hsymbol]
  apply lexes_leadingText hseparates hfollowing _ (h _ List.mem_cons_self)
  rwa [List.append_nil]

/-- A coefficient whose expansion does not end lexes up to the slash of its fraction. -/
theorem exists_lexes_coefficientText {q : Rat} (h : ¬ OnlyTwosAndFives q.den)
    (more : List Char) :
    ∃ input after kinds, coefficientText q ++ more = input ++ '/' :: after ∧
      Lexes vocabulary ('/' :: after) input kinds := by
  have hends : EndsNumber ([] ++ '/' :: (natText q.den ++ [')'] ++ more)) := by
    intro c hc
    cases hc
    rfl
  have hempty : Lexes vocabulary ('/' :: (natText q.den ++ [')'] ++ more)) [] [] := .nil
  have hnumber := Lexes.number (numeral_natText q.num.natAbs) hends hempty
  have hopening : punctuation? '(' = some .opening := rfl
  refine ⟨_, _, _, ?_, .punctuation hopening (lexes_signText hnumber q)⟩
  rw [Rational.coefficientText_of_not_onlyTwosAndFives h]
  simp

theorem exists_lexes_followingTexts (hseparates : vocabulary.Separates) {list : List Term}
    (h : ∃ t ∈ list, ¬ OnlyTwosAndFives t.coefficient.den) :
    ∃ input after kinds,
      list.flatMap (followingText vocabulary.symbol) = input ++ '/' :: after ∧
        Lexes vocabulary ('/' :: after) input kinds := by
  induction list with
  | nil => simp at h
  | cons t list ih =>
      by_cases ht : OnlyTwosAndFives t.coefficient.den
      · have hrest := (List.or_exists_of_exists_mem_cons h).resolve_left (not_not_intro ht)
        obtain ⟨input, after, kinds, htext, hlexes⟩ := ih hrest
        have hends := endsNumber_followingTexts vocabulary.symbol list
        rw [htext] at hends
        refine ⟨_, after, _, ?_, lexes_followingText hseparates hlexes hends ht⟩
        rw [List.flatMap_cons, htext, List.append_assoc]
      · have habs : ¬ OnlyTwosAndFives |t.coefficient|.den := by
          rwa [Rat.den_abs_eq_den]
        obtain ⟨input, after, kinds, htext, hlexes⟩ := exists_lexes_coefficientText habs
          (powerText vocabulary.symbol t.exponent ++
            list.flatMap (followingText vocabulary.symbol))
        refine ⟨_, after, _, ?_, lexes_followingSign hlexes t.coefficient⟩
        rw [List.flatMap_cons, followingText_eq, leadingText]
        simp [htext]

/-- The written form lexes up to its first slash if the expansion of some coefficient does not
end. -/
theorem exists_lexes_slash (hseparates : vocabulary.Separates) {p : SparsePolynomial}
    (hsymbol : vocabulary.symbol = p.symbol)
    (h : ∃ t ∈ p.terms.stored, ¬ OnlyTwosAndFives t.coefficient.den) :
    ∃ input after kinds, p.text = input ++ '/' :: after ∧
      Lexes vocabulary ('/' :: after) input kinds := by
  rw [Terms.stored_eq_leading_cons] at h
  rw [text, ← hsymbol]
  by_cases hleading : OnlyTwosAndFives p.terms.leading.coefficient.den
  · have hrest := (List.or_exists_of_exists_mem_cons h).resolve_left (not_not_intro hleading)
    obtain ⟨input, after, kinds, htext, hlexes⟩ := exists_lexes_followingTexts hseparates hrest
    have hends := endsNumber_followingTexts vocabulary.symbol p.terms.tail.list
    rw [htext] at hends ⊢
    refine ⟨_, after, _, ?_, lexes_leadingText hseparates hlexes hends hleading⟩
    rw [List.append_assoc]
  · rw [leadingText, List.append_assoc]
    exact exists_lexes_coefficientText hleading _

end Lexing

end ExactAlgebra.SparsePolynomial
