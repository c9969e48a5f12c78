import ExactAlgebra.Proofs.Expression.Lexing
import ExactAlgebra.Proofs.Results

/-!
Places of failures. Computations are alike if they do the same up to the places of their failures.
A text has the same tokens wherever it begins: only the places of the tokens change, and the place
of what is no token.
-/

namespace ExactAlgebra

/-- The cause of a failure without its place. -/
def Error.unplaced : Error → Error
  | .mismatchedParentheses _ => .mismatchedParentheses 0
  | .unknownCharacter character _ => .unknownCharacter character 0
  | .malformedNumber _ => .malformedNumber 0
  | .unknownIdentifier name _ => .unknownIdentifier name 0
  | .missingOperand _ => .missingOperand 0
  | cause => cause

/-- Two computations both succeed with related results, or fail for the same cause, which may stand
at different places. -/
inductive Alike {α β : Type} (Related : α → β → Prop) : Except Error α → Except Error β → Prop
  | ok {a : α} {b : β} (h : Related a b) : Alike Related (.ok a) (.ok b)
  | error {cause other : Error} (h : cause.unplaced = other.unplaced) :
      Alike Related (.error cause) (.error other)

namespace Alike

variable {α β γ δ : Type}

theorem refl (x : Except Error α) : Alike Eq x x := by
  cases x with
  | error cause => exact .error rfl
  | ok a => exact .ok rfl

theorem bind {Related : α → β → Prop} {Continued : γ → δ → Prop} {x : Except Error α}
    {y : Except Error β} {f : α → Except Error γ} {g : β → Except Error δ}
    (h : Alike Related x y)
    (hnext : ∀ a b, x = .ok a → Related a b → Alike Continued (f a) (g b)) :
    Alike Continued (x >>= f) (y >>= g) := by
  cases h with
  | ok h => exact hnext _ _ rfl h
  | error h => exact .error h

theorem map {Related : α → β → Prop} {Mapped : γ → δ → Prop} {x : Except Error α}
    {y : Except Error β} {f : α → γ} {g : β → δ} (h : Alike Related x y)
    (hmapped : ∀ a b, Related a b → Mapped (f a) (g b)) : Alike Mapped (x.map f) (y.map g) := by
  cases h with
  | ok h => exact .ok (hmapped _ _ h)
  | error h => exact .error h

theorem mono {Related Weaker : α → β → Prop} {x : Except Error α} {y : Except Error β}
    (h : Alike Related x y) (hweaker : ∀ a b, Related a b → Weaker a b) : Alike Weaker x y := by
  cases h with
  | ok h => exact .ok (hweaker _ _ h)
  | error h => exact .error h

theorem mapError_unplaced_eq {x y : Except Error α} (h : Alike Eq x y) :
    x.mapError Error.unplaced = y.mapError Error.unplaced := by
  cases h with
  | ok h =>
      cases h
      rfl
  | error h => exact congrArg Except.error h

end Alike

theorem alike_numberValue (run : List Char) (i j : Nat) :
    Alike Eq (numberValue i run) (numberValue j run) := by
  rw [numberValue, numberValue]
  cases run.dropWhile Char.isDigit with
  | nil => exact .ok rfl
  | cons point rest =>
      dsimp only
      split
      · exact .error rfl
      · split
        · exact .error rfl
        · exact .ok rfl

namespace Vocabulary

variable (vocabulary : Vocabulary)

theorem alike_lexeme (c : Char) (rest : List Char) (i j : Nat) :
    Alike Eq (vocabulary.lexeme i c rest) (vocabulary.lexeme j c rest) := by
  rw [lexeme, lexeme]
  split
  · exact .ok rfl
  split
  · apply (alike_numberValue _ i j).map
    rintro value _ rfl
    rfl
  cases punctuation? c with
  | some token => exact .ok rfl
  | none =>
      cases vocabulary.longestConstant? (c :: rest) with
      | some constant => exact .ok rfl
      | none =>
          dsimp only
          split
          · exact .ok rfl
          split
          · exact .error rfl
          · exact .error rfl

/-- The kinds of the tokens do not depend on the position at which a text begins. -/
theorem alike_tokensFrom (input : List Char) (i j : Nat) :
    Alike (fun tokens others => others.map PlacedToken.token = tokens.map PlacedToken.token)
      (vocabulary.tokensFrom i input) (vocabulary.tokensFrom j input) := by
  induction hlength : input.length using Nat.strongRecOn generalizing i j input with
  | ind length ih =>
      cases input with
      | nil =>
          rw [tokensFrom, tokensFrom]
          exact .ok rfl
      | cons c rest =>
          rw [tokensFrom, tokensFrom]
          apply (vocabulary.alike_lexeme c rest i j).bind
          rintro ⟨token, following⟩ _ _ rfl
          have hshorter : (rest.drop following).length < length := by
            rw [← hlength, List.length_drop, List.length_cons]
            omega
          apply (ih _ hshorter _ _ _ rfl).bind
          intro tokens others _ hkinds
          cases token with
          | none => exact .ok hkinds
          | some token => exact .ok (congrArg (token :: ·) hkinds)

end Vocabulary

end ExactAlgebra
