import ExactAlgebra.Proofs.Expression.DoubledSigns
import ExactAlgebra.Proofs.Expression.LexicalGrammar

/-!
Prefix plus signs against prefix minus signs. A text in which a prefix plus sign is replaced by two
minus signs has the same outcome, unless the sign stands behind a caret and its operand before
another one: then the plus sign leaves the operand to the first power, and the minus signs give it
to the second.
-/

namespace ExactAlgebra

namespace Vocabulary

/-- The scanner finds these tokens in the first part of a text, and then goes on with the rest. -/
def ScansTo (vocabulary : Vocabulary) (first rest : String) (tokens : List PlacedToken) : Prop :=
  vocabulary.tokens (first ++ rest).toList =
    (vocabulary.tokensFrom (byteLength first.toList) rest.toList).map (tokens ++ ·)

variable {vocabulary : Vocabulary} {before after : String} {left : List PlacedToken}

/-- Every plus sign among the tokens of a text stands somewhere in the text, and the scanner comes
there with the tokens before it. -/
theorem exists_scansTo_of_tokens {input : String} {i : Nat} {right : List PlacedToken}
    (h : vocabulary.tokens input.toList = .ok (left ++ ⟨.plus, i⟩ :: right)) :
    ∃ before after, input = before ++ "+" ++ after ∧
      vocabulary.ScansTo before ("+" ++ after) left := by
  obtain ⟨pieces, hcut, hplaced⟩ := exists_isCut_of_tokensFrom h
  have hplus : ('+', Token.plus) ∈ operators := by decide
  obtain ⟨before, after, hinput, _, htokens⟩ := exists_append_of_isCut hcut hplus hplaced
  have hsplit : input = String.ofList before ++ "+" ++ String.ofList after := by
    rw [← String.toList_inj, hinput]
    simp
  refine ⟨String.ofList before, String.ofList after, hsplit, ?_⟩
  rw [Nat.zero_add] at htokens
  rw [ScansTo, ← String.append_assoc, ← hsplit, h]
  simp only [String.toList_append, String.toList_ofList]
  change _ = Except.map _ (vocabulary.tokensFrom (byteLength before) ('+' :: after))
  rw [htokens]
  rfl

theorem tokensFrom_punctuation {c : Char} {token : Token} (h : punctuation? c = some token)
    (position : Nat) (rest : List Char) :
    vocabulary.tokensFrom position (c :: rest) =
      (vocabulary.tokensFrom (position + c.utf8Size) rest).map (⟨token, position⟩ :: ·) :=
  tokensFrom_of_lexeme (lexeme_punctuation h position rest)

theorem tokens_plus (h : vocabulary.ScansTo before ("+" ++ after) left) :
    vocabulary.tokens (before ++ "+" ++ after).toList =
      (vocabulary.tokensFrom (byteLength before.toList + 1) after.toList).map
        fun right => left ++ ⟨.plus, byteLength before.toList⟩ :: right := by
  have hplus : ('+' : Char).utf8Size = 1 := rfl
  rw [String.append_assoc, h, String.toList_append]
  change Except.map _ (vocabulary.tokensFrom _ ('+' :: after.toList)) = _
  rw [tokensFrom_punctuation rfl, hplus]
  cases vocabulary.tokensFrom (byteLength before.toList + 1) after.toList <;> rfl

theorem tokens_two_minus (h : vocabulary.ScansTo before ("--" ++ after) left) :
    vocabulary.tokens (before ++ "--" ++ after).toList =
      (vocabulary.tokensFrom (byteLength before.toList + 2) after.toList).map fun right =>
        left ++ ⟨.minus, byteLength before.toList⟩ ::
          ⟨.minus, byteLength before.toList + 1⟩ :: right := by
  have hminus : ('-' : Char).utf8Size = 1 := rfl
  rw [String.append_assoc, h, String.toList_append]
  change Except.map _ (vocabulary.tokensFrom _ ('-' :: '-' :: after.toList)) = _
  rw [tokensFrom_punctuation rfl, tokensFrom_punctuation rfl, hminus]
  cases vocabulary.tokensFrom (byteLength before.toList + 2) after.toList <;> rfl

end Vocabulary

namespace SparsePolynomial

/-- A plus sign where an operand is expected can be replaced by two minus signs, wherever it stands
but in one place: behind a caret, with an operand that a caret follows. The outcome is the same
polynomial, or a failure for the same cause. -/
theorem parseWith_two_minus (vocabulary : Vocabulary) (before after : String)
    (left : List PlacedToken) (hplus : vocabulary.ScansTo before ("+" ++ after) left)
    (hminus : vocabulary.ScansTo before ("--" ++ after) left)
    (hexpected : expectsAfter true (left.map PlacedToken.token) = true)
    (hcaret : exponentAfter false (left.map PlacedToken.token) = true →
      ∀ right, vocabulary.tokens after.toList = .ok right →
        (afterOperand (right.map PlacedToken.token)).head? ≠ some .caret) :
    (parseWith vocabulary (before ++ "--" ++ after)).mapError Error.unplaced =
      (parseWith vocabulary (before ++ "+" ++ after)).mapError Error.unplaced := by
  -- Behind the signs the tokens are the same one byte further on, and in a text of their own.
  have hafter := vocabulary.alike_tokensFrom after.toList (byteLength before.toList + 1)
    (byteLength before.toList + 2)
  have hstart := vocabulary.alike_tokensFrom after.toList (byteLength before.toList + 1) 0
  symm
  apply Alike.mapError_unplaced_eq
  rw [parseWith, parseWith, Vocabulary.tokens_plus hplus, Vocabulary.tokens_two_minus hminus]
  generalize vocabulary.tokensFrom (byteLength before.toList + 1) after.toList = scanned at *
  generalize vocabulary.tokensFrom (byteLength before.toList + 2) after.toList = moved at *
  cases hafter with
  | error hcause => exact .error hcause
  | @ok right others hothers =>
      have hrest : exponentAfter false (left.map PlacedToken.token) = true →
          (afterOperand (right.map PlacedToken.token)).head? ≠ some .caret := by
        intro hexponent
        generalize hfirst : vocabulary.tokensFrom 0 after.toList = first at hstart
        cases hstart with
        | ok hkinds =>
            rw [← hkinds]
            exact hcaret hexponent _ hfirst
      apply (Machine.alike_evaluate hexpected hrest hothers _ _ _ _ _).bind
      rintro value _ _ rfl
      exact .refl _

/-- An exponent with a sign and no caret behind it. -/
theorem parse_two_minus_exponent :
    Vocabulary.standard.ScansTo "2^" "+3 - x" [⟨.number 2, 0⟩, ⟨.caret, 1⟩] ∧
      Vocabulary.standard.ScansTo "2^" "--3 - x" [⟨.number 2, 0⟩, ⟨.caret, 1⟩] ∧
      expectsAfter true [.number 2, .caret] = true ∧
      exponentAfter false [.number 2, .caret] = true ∧
      (parse "2^--3 - x").mapError Error.unplaced = (parse "2^+3 - x").mapError Error.unplaced := by
  have hplus : Vocabulary.standard.ScansTo "2^" "+3 - x" [⟨.number 2, 0⟩, ⟨.caret, 1⟩] := by
    rw [Vocabulary.ScansTo]
    decide +kernel
  have hminus : Vocabulary.standard.ScansTo "2^" "--3 - x" [⟨.number 2, 0⟩, ⟨.caret, 1⟩] := by
    rw [Vocabulary.ScansTo]
    decide +kernel
  have hafter : Vocabulary.standard.tokens "3 - x".toList =
      .ok [⟨.number 3, 0⟩, ⟨.minus, 2⟩, ⟨.symbol, 4⟩] := by
    decide +kernel
  refine ⟨hplus, hminus, rfl, rfl, ?_⟩
  refine parseWith_two_minus .standard "2^" "3 - x" [⟨.number 2, 0⟩, ⟨.caret, 1⟩] hplus hminus rfl
    ?_
  intro _ right hright
  rw [hafter] at hright
  cases hright
  decide

/-- With a caret behind the operand, the plus sign leaves the operand to the first power, and the
minus signs give it to the second. -/
theorem parse_plus_between_carets :
    Vocabulary.standard.ScansTo "2^" "+3^2" [⟨.number 2, 0⟩, ⟨.caret, 1⟩] ∧
      Vocabulary.standard.ScansTo "2^" "--3^2" [⟨.number 2, 0⟩, ⟨.caret, 1⟩] ∧
      expectsAfter true [.number 2, .caret] = true ∧
      parse "2^+3^2" = .ok (constant 64) ∧ parse "2^--3^2" = .ok (constant 512) ∧
      (parse "2^--3^2").mapError Error.unplaced ≠ (parse "2^+3^2").mapError Error.unplaced := by
  have hplusTokens : Vocabulary.standard.tokens "2^+3^2".toList =
      .ok [⟨.number 2, 0⟩, ⟨.caret, 1⟩, ⟨.plus, 2⟩, ⟨.number 3, 3⟩, ⟨.caret, 4⟩,
        ⟨.number 2, 5⟩] := by
    decide +kernel
  have hminusTokens : Vocabulary.standard.tokens "2^--3^2".toList =
      .ok [⟨.number 2, 0⟩, ⟨.caret, 1⟩, ⟨.minus, 2⟩, ⟨.minus, 3⟩, ⟨.number 3, 4⟩, ⟨.caret, 5⟩,
        ⟨.number 2, 6⟩] := by
    decide +kernel
  have hplus : parse "2^+3^2" = .ok (constant 64) := by
    rw [parse, parseWith, hplusTokens]
    rfl
  have hminus : parse "2^--3^2" = .ok (constant 512) := by
    rw [parse, parseWith, hminusTokens]
    rfl
  refine ⟨?_, ?_, rfl, hplus, hminus, ?_⟩
  · rw [Vocabulary.ScansTo]
    decide +kernel
  · rw [Vocabulary.ScansTo]
    decide +kernel
  · rw [hplus, hminus]
    intro h
    have hsame := congrArg (fun p => p == constant 64) (Except.ok.inj h)
    have hdiffers : (constant 512 == constant 64) = (constant 64 == constant 64) := hsame
    revert hdiffers
    decide +kernel

end SparsePolynomial

end ExactAlgebra
