import ExactAlgebra.Proofs.Safety.Parser
import ExactAlgebra.Proofs.SparsePolynomial.Moduli

/-!
Reading an expression does not look at the moduli of the vocabulary. They decide neither how a text
is split into tokens nor what the tokens stand for, and are put on the polynomial in the end. Until
then it has no moduli of its own, so that it carries those of the vocabulary and no others.
-/

namespace ExactAlgebra

namespace Vocabulary

def withModuli (moduli : Moduli) (vocabulary : Vocabulary) : Vocabulary :=
  vocabulary.withSetting (vocabulary.setting.withModuli moduli)

theorem lexeme_withModuli (m : Moduli) (vocabulary : Vocabulary) (position : Nat) (c : Char)
    (rest : List Char) :
    (vocabulary.withModuli m).lexeme position c rest = vocabulary.lexeme position c rest := rfl

theorem tokensFrom_withModuli (m : Moduli) (vocabulary : Vocabulary) (position : Nat)
    (input : List Char) :
    (vocabulary.withModuli m).tokensFrom position input =
      vocabulary.tokensFrom position input := by
  induction hlength : input.length using Nat.strongRecOn generalizing position input with
  | ind length ih =>
      cases input with
      | nil => rw [tokensFrom, tokensFrom]
      | cons c rest =>
          rw [tokensFrom, tokensFrom, lexeme_withModuli]
          refine congrArg _ (funext fun next => ?_)
          have hshorter : (rest.drop next.following).length < length := by
            rw [List.length_drop, ← hlength, List.length_cons]
            omega
          dsimp only
          rw [ih _ hshorter _ _ rfl]

end Vocabulary

namespace SparsePolynomial

/-- What an expression is read as has the setting of the vocabulary, as its value is plain. -/
theorem parseWith_eq (vocabulary : Vocabulary) (input : String) :
    parseWith vocabulary input = (do
      let tokens ← vocabulary.tokens input.toList
      let value ← Machine.evaluate vocabulary.symbol tokens (byteLength input.toList)
      return { value.toPolynomial vocabulary.symbol with setting := vocabulary.setting }) := by
  apply bind_congr_ok
  intro tokens _
  apply bind_congr_ok
  intro value hvalue
  have hplain := (Guarded.agrees_evaluate _ _ _).property_of_eq_ok value hvalue
  rw [Vocabulary.configure, hplain.setting, Setting.over_plain]

/-- The moduli of the vocabulary are put on the polynomial that is read, and decide nothing else. -/
theorem parseWith_withModuli (m : Moduli) (vocabulary : Vocabulary) (input : String) :
    parseWith (vocabulary.withModuli m) input =
      (parseWith vocabulary input).map (withModuli m) := by
  have htokens : (vocabulary.withModuli m).tokens input.toList =
      (vocabulary.tokens input.toList).map id := by
    rw [Except.map_id]
    exact Vocabulary.tokensFrom_withModuli m vocabulary 0 input.toList
  rw [parseWith_eq, parseWith_eq]
  refine bind_eq_map_bind htokens fun tokens => ?_
  have hvalue : Machine.evaluate (vocabulary.withModuli m).symbol tokens (byteLength input.toList) =
      (Machine.evaluate vocabulary.symbol tokens (byteLength input.toList)).map id := by
    rw [Except.map_id]
    rfl
  exact bind_eq_map_bind hvalue fun _ => rfl

/-- What is read has the setting of the vocabulary. -/
theorem hasSetting_parseWith (vocabulary : Vocabulary) (input : String) :
    HasSetting vocabulary.setting (parseWith vocabulary input) := by
  intro p h
  rw [parseWith_eq] at h
  obtain ⟨tokens, _, hvalue⟩ := eq_ok_of_bind h
  obtain ⟨value, _, hresult⟩ := eq_ok_of_bind hvalue
  cases hresult
  rfl

/-- Moduli are configuration and not value. Exchanging the moduli of the operands of any operation
but powers leaves the terms, the variable and the error of the result, and a result has the variable
and the moduli of the operand that lends them. What an expression is read as does not depend on the
moduli it is read with, and carries them. Powers do depend on moduli. -/
theorem operations_withModuli (m n : Moduli) (p q : SparsePolynomial) (vocabulary : Vocabulary)
    (input : String) :
    IgnoresModuli m n p q ∧ LendsSetting p q ∧
      parseWith (vocabulary.withModuli m) input =
        (parseWith vocabulary input).map (withModuli m) ∧
      HasSetting vocabulary.setting (parseWith vocabulary input) ∧
      ∃ (base : SparsePolynomial) (moduli : Moduli) (exponent : Nat),
        (base.withModuli moduli).pow exponent ≠ (base.pow exponent).map (withModuli moduli) :=
  ⟨ignoresModuli m n p q, lendsSetting p q, parseWith_withModuli m vocabulary input,
    hasSetting_parseWith vocabulary input, exists_pow_withModuli_ne⟩

end SparsePolynomial

end ExactAlgebra
