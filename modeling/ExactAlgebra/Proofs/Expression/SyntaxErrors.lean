import ExactAlgebra.Proofs.Expression.LexicalGrammar
import ExactAlgebra.Proofs.Expression.Reading
import ExactAlgebra.Proofs.Safety.Parser
import ExactAlgebra.Proofs.SparsePolynomial.Division
import ExactAlgebra.Proofs.SparsePolynomial.ModularPower

/-!
The places of syntax errors. The parentheses that wait on the stack of operators are those that are
open in the tokens read so far, so the position of an unmatched parenthesis can be told from the
tokens. Operators may act before the error is found, but their own errors are of other kinds.
-/

namespace ExactAlgebra

/-- The causes that operators report about their operands. -/
inductive Error.IsArithmetic : Error → Prop
  | divisionByZero : IsArithmetic .divisionByZero
  | overflow (quantity : Quantity) : IsArithmetic (.overflow quantity)
  | invalidExponent (exponent : String) : IsArithmetic (.invalidExponent exponent)

namespace Operand

variable {a b : Operand} {cause : Error}

theorem isArithmetic_of_mul (h : a.mul b = .error cause) : cause.IsArithmetic := by
  cases a with
  | number a =>
      cases b with
      | number b => cases h
      | polynomial q =>
          obtain ⟨_, rfl⟩ := SparsePolynomial.mul_eq_error_iff.1 (eq_error_of_map h)
          exact .overflow _
  | polynomial p =>
      cases b with
      | number b => cases h
      | polynomial q =>
          obtain ⟨_, rfl⟩ := SparsePolynomial.mul_eq_error_iff.1 (eq_error_of_map h)
          exact .overflow _

theorem isArithmetic_of_modOperand {p : SparsePolynomial} (h : modOperand p b = .error cause) :
    cause.IsArithmetic := by
  rw [modOperand] at h
  split at h
  · rw [SparsePolynomial.modScalar] at h
    split at h
    · cases h
      exact .divisionByZero
    · cases h
  · obtain ⟨_, rfl⟩ := SparsePolynomial.divMod_eq_error_iff.1 (eq_error_of_map h)
    exact .divisionByZero

theorem isArithmetic_of_mod (h : a.mod b = .error cause) : cause.IsArithmetic := by
  cases a with
  | number a =>
      cases b with
      | number b =>
          rw [mod] at h
          split at h
          · cases h
            exact .divisionByZero
          · cases h
      | polynomial q => exact isArithmetic_of_modOperand (eq_error_of_map h)
  | polynomial p => exact isArithmetic_of_modOperand (eq_error_of_map h)

theorem isArithmetic_of_exponent (h : b.exponent = .error cause) : cause.IsArithmetic := by
  rw [exponent] at h
  split at h
  · rw [SparsePolynomial.powerExponent] at h
    split at h
    · cases h
      exact .invalidExponent _
    · cases h
  · cases h
    exact .invalidExponent _

theorem isArithmetic_of_pow (h : a.pow b = .error cause) : cause.IsArithmetic := by
  rcases eq_error_of_bind h with hexponent | ⟨exponent, _, hpower⟩
  · exact isArithmetic_of_exponent hexponent
  · cases a with
    | number value => cases hpower
    | polynomial p =>
        rw [SparsePolynomial.eq_overflow_of_pow (eq_error_of_map hpower)]
        exact .overflow _

theorem isArithmetic_of_value {operator : Operator} (h : operator.value a b = .error cause) :
    cause.IsArithmetic := by
  cases operator with
  | add | subtract | negate => cases h
  | multiply => exact isArithmetic_of_mul h
  | remainder => exact isArithmetic_of_mod h
  | power => exact isArithmetic_of_pow h

end Operand

namespace Machine

variable {symbol : Char} {pending : List Pending} {values : List Operand} {machine : Machine}
  {cause : Error}

/-- With its operands on the stack, an operator can only fail at their values. -/
theorem isArithmetic_of_apply {operator : Operator} {position : Nat}
    (hloaded : Guarded.Loaded symbol (.operator operator position :: pending) values)
    (h : operator.apply position values = .error cause) : cause.IsArithmetic := by
  have hcount := hloaded.count
  by_cases hnegate : operator = .negate
  · subst hnegate
    cases values with
    | nil => cases hcount
    | cons right rest => cases h
  · rw [List.countP_cons_of_pos (by simpa [Guarded.takesTwo] using hnegate)] at hcount
    cases values with
    | nil => cases hcount
    | cons right rest =>
        cases rest with
        | nil => cases hcount
        | cons left rest =>
            rw [apply_binary hnegate] at h
            exact Operand.isArithmetic_of_value (eq_error_of_map h)

theorem isArithmetic_of_reduce {level : Precedence} (hloaded : Guarded.Loaded symbol pending values)
    (h : reduce level pending values = .error cause) : cause.IsArithmetic := by
  induction pending generalizing values with
  | nil => cases h
  | cons entry pending ih =>
      cases entry with
      | opening position => cases h
      | operator operator position =>
          rw [reduce] at h
          split at h
          · cases h
          · rcases eq_error_of_bind h with happly | ⟨next, happly, hrest⟩
            · exact isArithmetic_of_apply hloaded happly
            · exact ih ((Guarded.agrees_apply hloaded).property_of_eq_ok next happly) hrest

theorem isArithmetic_of_pushBinary {operator : Operator} {position : Nat}
    (hloaded : Guarded.Loaded symbol machine.pending machine.values)
    (h : machine.pushBinary operator position = .error cause) : cause.IsArithmetic := by
  rw [pushBinary_eq] at h
  rcases eq_error_of_bind h with hreduce | ⟨state, _, hnext⟩
  · exact isArithmetic_of_reduce hloaded hreduce
  · cases hnext

/-- Where a parenthesis is open, closing it fails at the operators inside at most. -/
theorem isArithmetic_of_closeGroup {position : Nat} (hopen : openings pending ≠ [])
    (hloaded : Guarded.Loaded symbol pending values)
    (h : closeGroup position pending values = .error cause) : cause.IsArithmetic := by
  induction pending generalizing values with
  | nil => exact absurd rfl hopen
  | cons entry pending ih =>
      cases entry with
      | opening opened => cases h
      | operator operator opened =>
          rcases eq_error_of_bind h with happly | ⟨next, happly, hrest⟩
          · exact isArithmetic_of_apply hloaded happly
          · exact ih hopen ((Guarded.agrees_apply hloaded).property_of_eq_ok next happly) hrest

/-- The end of an expression fails at an operator, or at the innermost open parenthesis. -/
theorem failure_of_drain (hloaded : Guarded.Loaded symbol pending values)
    (h : drain pending values = .error cause) :
    cause.IsArithmetic ∨
      ∃ opened outer, openings pending = opened :: outer ∧
        cause = .mismatchedParentheses opened := by
  induction pending generalizing values with
  | nil => cases h
  | cons entry pending ih =>
      cases entry with
      | opening opened =>
          cases h
          exact Or.inr ⟨opened, openings pending, rfl, rfl⟩
      | operator operator position =>
          rcases eq_error_of_bind h with happly | ⟨next, happly, hrest⟩
          · exact Or.inl (isArithmetic_of_apply hloaded happly)
          · exact ih ((Guarded.agrees_apply hloaded).property_of_eq_ok next happly) hrest

/-- Why the machine fails at a token. -/
inductive FailsAt (machine : Machine) (placed : PlacedToken) : Error → Prop
  | arithmetic {cause : Error} (h : cause.IsArithmetic) : FailsAt machine placed cause
  | unmatched (htoken : placed.token = .closing) (hnone : openings machine.pending = []) :
      FailsAt machine placed (.mismatchedParentheses placed.position)
  | operand (htoken : placed.token ∈ [.star, .percent, .caret, .closing])
      (hexpects : machine.expectsOperand = true) :
      FailsAt machine placed (.missingOperand placed.position)

theorem failsAt_of_infixOperator {placed : PlacedToken} {operator : Operator}
    (horder : Guarded.InOrder symbol machine)
    (htoken : placed.token ∈ [.star, .percent, .caret, .closing])
    (h : machine.infixOperator operator placed.position = .error cause) :
    FailsAt machine placed cause := by
  rw [infixOperator] at h
  split at h
  · rename_i hexpects
    cases h
    exact .operand htoken hexpects
  · rename_i hexpects
    have hloaded := horder.loaded (Bool.eq_false_of_not_eq_true hexpects)
    exact .arithmetic (isArithmetic_of_pushBinary hloaded h)

theorem failsAt_of_close {placed : PlacedToken} (horder : Guarded.InOrder symbol machine)
    (htoken : placed.token = .closing) (h : machine.close placed.position = .error cause) :
    FailsAt machine placed cause := by
  rw [close] at h
  split at h
  · rename_i hopening
    split at h
    · rename_i hexpects
      cases h
      exact .operand (by simp [htoken]) hexpects
    · rename_i hexpects
      have hloaded := horder.loaded (Bool.eq_false_of_not_eq_true hexpects)
      have hopen : openings machine.pending ≠ [] := by
        rw [Ne, openings_eq_nil_iff, hopening]
        decide
      rcases eq_error_of_bind h with hclose | ⟨state, _, hnext⟩
      · exact .arithmetic (isArithmetic_of_closeGroup hopen hloaded hclose)
      · cases hnext
  · rename_i hopening
    cases h
    exact .unmatched htoken (openings_eq_nil_iff.2 (Bool.eq_false_of_not_eq_true hopening))

theorem failsAt_of_take {placed : PlacedToken} (horder : Guarded.InOrder symbol machine)
    (h : machine.take symbol placed = .error cause) : FailsAt machine placed cause := by
  obtain ⟨token, position⟩ := placed
  cases token with
  | number value | constant value | symbol | opening => cases h
  | closing => exact failsAt_of_close horder rfl h
  | plus | minus =>
      simp only [take] at h
      split at h
      · cases h
      · rename_i hexpects
        have hloaded := horder.loaded (Bool.eq_false_of_not_eq_true hexpects)
        exact .arithmetic (isArithmetic_of_pushBinary hloaded h)
  | star | percent | caret => exact failsAt_of_infixOperator horder (by simp) h

/-- A token that begins an operand fails only in the multiplication put in before it. -/
theorem failsAt_of_step {placed : PlacedToken} (horder : Guarded.InOrder symbol machine)
    (h : machine.step symbol placed = .error cause) : FailsAt machine placed cause := by
  cases hbegins : placed.token.beginsOperand with
  | false =>
      rw [step_eq_take (Or.inr hbegins)] at h
      exact failsAt_of_take horder h
  | true =>
      cases hexpects : machine.expectsOperand with
      | true =>
          rw [step_eq_take (Or.inl hexpects)] at h
          exact failsAt_of_take horder h
      | false =>
          rw [step_juxtaposed hexpects hbegins] at h
          rcases eq_error_of_bind h with hpush | ⟨ready, _, htake⟩
          · exact .arithmetic (isArithmetic_of_pushBinary (horder.loaded hexpects) hpush)
          · obtain ⟨token, position⟩ := placed
            cases token with
            | number | constant | symbol | opening => cases htake
            | _ => cases hbegins

/-- A run that fails does so at one of the tokens, having read those before it. -/
theorem exists_step_of_run_eq_error {tokens : List PlacedToken}
    (h : machine.run symbol tokens = .error cause) :
    ∃ before placed after next, tokens = before ++ placed :: after ∧
      machine.run symbol before = .ok next ∧ next.step symbol placed = .error cause := by
  induction tokens generalizing machine with
  | nil => cases h
  | cons placed rest ih =>
      rcases eq_error_of_bind h with hstep | ⟨middle, hstep, hrest⟩
      · exact ⟨[], placed, rest, machine, rfl, rfl, hstep⟩
      · obtain ⟨before, failing, after, next, rfl, hbefore, hfails⟩ := ih hrest
        refine ⟨placed :: before, failing, after, next, rfl, ?_, hfails⟩
        rw [run, hstep]
        exact hbefore

/-- The parentheses that wait are those that are open in the tokens. -/
theorem opens_of_run {next : Machine} {before tokens : List PlacedToken}
    (hopens : Opens before (openings machine.pending))
    (h : machine.run symbol tokens = .ok next) :
    Opens (before ++ tokens) (openings next.pending) := by
  induction tokens generalizing machine before with
  | nil =>
      cases h
      rwa [List.append_nil]
  | cons placed rest ih =>
      obtain ⟨middle, hstep, hrest⟩ := eq_ok_of_bind h
      obtain ⟨hopenings, hopen⟩ := openings_of_step hstep
      rw [List.append_cons]
      apply ih _ hrest
      rw [hopenings]
      exact hopens.step hopen

end Machine

/-- There is no token, or the last one is an operator, a sign or an opening parenthesis. -/
def AwaitsOperand (before : List PlacedToken) : Prop :=
  ∀ last ∈ before.getLast?,
    last.token ∈ [Token.plus, .minus, .star, .percent, .caret, .opening]

/-- An operand is missing at a position: at the end of the tokens, or before one of them that needs
an operand in front of it. -/
def MissesOperand (tokens : List PlacedToken) (finish position : Nat) : Prop :=
  (position = finish ∧ AwaitsOperand tokens) ∨
    ∃ before placed after, tokens = before ++ placed :: after ∧ placed.position = position ∧
      placed.token ∈ [.star, .percent, .caret, .closing] ∧ AwaitsOperand before

theorem leavesOperandExpected_iff {token : Token} :
    token.leavesOperandExpected = true ↔
      token ∈ [Token.plus, .minus, .star, .percent, .caret, .opening] := by
  cases token <;> simp [Token.leavesOperandExpected]

theorem awaitsOperand_of_expectsAfter {before : List PlacedToken}
    (h : expectsAfter true (before.map PlacedToken.token) = true) : AwaitsOperand before := by
  intro last hlast
  obtain ⟨others, rfl⟩ := List.getLast?_eq_some_iff.1 hlast
  rw [List.map_append, expectsAfter_append] at h
  exact leavesOperandExpected_iff.1 h

/-- What an error says about tokens that end at a position. -/
inductive Explains (tokens : List PlacedToken) (finish : Nat) : Error → Prop
  | arithmetic {cause : Error} (h : cause.IsArithmetic) : Explains tokens finish cause
  | closing {position : Nat} (h : IsFirstUnmatchedClosing tokens position) :
      Explains tokens finish (.mismatchedParentheses position)
  | opening {position : Nat} (hclosings : ClosingsMatched tokens)
      (h : IsLastUnmatchedOpening tokens position) :
      Explains tokens finish (.mismatchedParentheses position)
  | operand {position : Nat} (h : MissesOperand tokens finish position) :
      Explains tokens finish (.missingOperand position)

namespace Machine

variable {symbol : Char} {tokens : List PlacedToken} {finish : Nat} {last : Machine}
  {cause : Error}

theorem inOrder_of_run (h : initial.run symbol tokens = .ok last) :
    Guarded.InOrder symbol last := by
  have hinitial : Guarded.InOrder symbol initial := ⟨fun _ hmem => (by cases hmem), rfl⟩
  exact (Guarded.agrees_run hinitial).property_of_eq_ok last h

theorem opens_of_initial_run (h : initial.run symbol tokens = .ok last) :
    Opens tokens (openings last.pending) := by
  have hinitial : Opens [] (openings initial.pending) := .balanced .nil
  exact opens_of_run hinitial h

theorem awaitsOperand_of_run (h : initial.run symbol tokens = .ok last)
    (hexpects : last.expectsOperand = true) : AwaitsOperand tokens := by
  rw [(shape_of_run h).1] at hexpects
  exact awaitsOperand_of_expectsAfter hexpects

theorem explains_of_run (h : initial.run symbol tokens = .error cause) (finish : Nat) :
    Explains tokens finish cause := by
  obtain ⟨before, placed, after, next, rfl, hbefore, hstep⟩ := exists_step_of_run_eq_error h
  cases failsAt_of_step (inOrder_of_run hbefore) hstep with
  | arithmetic h => exact .arithmetic h
  | unmatched htoken hnone =>
      obtain ⟨token, position⟩ := placed
      subst htoken
      have hopens := opens_of_initial_run hbefore
      rw [hnone] at hopens
      exact .closing (hopens.isFirstUnmatchedClosing position)
  | operand htoken hexpects =>
      refine .operand (Or.inr ?_)
      exact ⟨before, placed, after, rfl, rfl, htoken, awaitsOperand_of_run hbefore hexpects⟩

/-- Behind the last token an operand or a closing parenthesis may be missing. -/
theorem explains_of_finish (hrun : initial.run symbol tokens = .ok last)
    (h : last.finish finish = .error cause) : Explains tokens finish cause := by
  rw [Machine.finish] at h
  split at h
  · rename_i hexpects
    cases h
    exact .operand (Or.inl ⟨rfl, awaitsOperand_of_run hrun hexpects⟩)
  · rename_i hexpects
    have hloaded := (inOrder_of_run hrun).loaded (Bool.eq_false_of_not_eq_true hexpects)
    rcases eq_error_of_bind h with hdrain | ⟨left, hdrain, hvalue⟩
    · rcases failure_of_drain hloaded hdrain with harithmetic | ⟨opened, outer, hopenings, rfl⟩
      · exact .arithmetic harithmetic
      · have hopens := opens_of_initial_run hrun
        rw [hopenings] at hopens
        exact .opening hopens.closingsMatched hopens.isLastUnmatchedOpening
    · have hcount := ((Guarded.agrees_drain hloaded).property_of_eq_ok left hdrain).count
      obtain ⟨value, hleft⟩ := List.length_eq_one_iff.1 hcount
      rw [hleft] at hvalue
      cases hvalue

theorem explains_of_evaluate (h : evaluate symbol tokens finish = .error cause) :
    Explains tokens finish cause := by
  rcases eq_error_of_bind h with hrun | ⟨last, hrun, hfinish⟩
  · exact explains_of_run hrun finish
  · exact explains_of_finish hrun hfinish

theorem isBalanced_of_evaluate {value : Operand} (h : evaluate symbol tokens finish = .ok value) :
    IsBalanced tokens := by
  obtain ⟨last, hrun, hfinish⟩ := eq_ok_of_bind h
  have hopens := opens_of_initial_run hrun
  rw [Machine.finish] at hfinish
  split at hfinish
  · cases hfinish
  · obtain ⟨left, hdrain, _⟩ := eq_ok_of_bind hfinish
    rw [openings_of_drain hdrain] at hopens
    exact hopens.isBalanced

end Machine

/-- What the outcome of reading tokens that end at a position says about their parentheses and
operands. -/
structure PointsAtCulprit {α : Type} (tokens : List PlacedToken) (finish : Nat)
    (outcome : Except Error α) : Prop where
  parenthesis : ∀ position, outcome = .error (.mismatchedParentheses position) →
    IsFirstUnmatchedClosing tokens position ∨
      ClosingsMatched tokens ∧ IsLastUnmatchedOpening tokens position
  operand : ∀ position, outcome = .error (.missingOperand position) →
    MissesOperand tokens finish position
  balanced : ∀ value, outcome = .ok value → IsBalanced tokens

/-- The tokens stand in the text from left to right, and operators and parentheses at the bytes
where their characters begin. -/
structure PlacedIn (input : List Char) (tokens : List PlacedToken) : Prop where
  ascending : tokens.Pairwise fun a b => a.position < b.position
  character : ∀ placed ∈ tokens, ∀ c, (c, placed.token) ∈ operators →
    ∃ before after, input = before ++ c :: after ∧ placed.position = byteLength before

namespace Vocabulary

variable {vocabulary : Vocabulary} {rest input : List Char} {piece : Piece} {pieces : List Piece}
  {position : Nat}

theorem byteLength_pos_of_isPiece (h : vocabulary.IsPiece rest piece) :
    0 < byteLength piece.text := by
  obtain ⟨c, following, htext, _⟩ := lexeme_of_isPiece h
  rw [htext, byteLength]
  exact Nat.add_pos_left c.utf8Size_pos _

theorem le_position_of_mem_placedTokens {placed : PlacedToken}
    (h : placed ∈ placedTokens position pieces) : position ≤ placed.position := by
  induction pieces generalizing position with
  | nil => cases h
  | cons piece pieces ih =>
      rcases List.mem_append.1 h with hfirst | hrest
      · obtain ⟨token, _, rfl⟩ := List.mem_map.1 hfirst
        exact Nat.le_refl position
      · exact Nat.le_trans (Nat.le_add_right _ _) (ih hrest)

theorem ascending_placedTokens (h : vocabulary.IsCut input pieces) (position : Nat) :
    (placedTokens position pieces).Pairwise fun a b => a.position < b.position := by
  induction h generalizing position with
  | nil => exact .nil
  | @cons rest piece pieces hpiece hrest ih =>
      refine List.pairwise_append.2 ⟨?_, ih _, ?_⟩
      · cases piece.token <;> simp
      · intro a ha b hb
        obtain ⟨token, _, rfl⟩ := List.mem_map.1 ha
        have hlater := le_position_of_mem_placedTokens hb
        have hpositive := byteLength_pos_of_isPiece hpiece
        rw [utf8ByteSize_ofList] at hlater
        exact Nat.lt_of_lt_of_le (Nat.lt_add_of_pos_right hpositive) hlater

theorem placedIn_of_isCut (h : vocabulary.IsCut input pieces) :
    PlacedIn input (placedTokens 0 pieces) := by
  refine ⟨ascending_placedTokens h 0, ?_⟩
  intro placed hplaced c hoperator
  obtain ⟨left, right, hsplit⟩ := List.append_of_mem hplaced
  obtain ⟨before, after, hinput, hposition, _⟩ := exists_append_of_isCut h hoperator hsplit
  exact ⟨before, after, hinput, by rw [hposition, Nat.zero_add]⟩

end Vocabulary

namespace SparsePolynomial

/-- Errors about the shape of an expression point at the culprit. With the tokens of a text placed
where they stand in it, a parenthesis is reported that lacks a partner: the first closing one, or
the last opening one if every closing one has a partner. A missing operand is reported at the end or
at the operator or closing parenthesis in front of which it is missing. A text with unbalanced
parentheses is never read with success. -/
theorem parseWith_pointsAtCulprit (vocabulary : Vocabulary) (input : String)
    (tokens : List PlacedToken) (h : vocabulary.tokens input.toList = .ok tokens) :
    PlacedIn input.toList tokens ∧
      PointsAtCulprit tokens input.utf8ByteSize (parseWith vocabulary input) := by
  obtain ⟨pieces, hcut, rfl⟩ := Vocabulary.exists_isCut_of_tokensFrom h
  refine ⟨Vocabulary.placedIn_of_isCut hcut, ?_⟩
  have hfinish : byteLength input.toList = input.utf8ByteSize := by
    rw [← utf8ByteSize_ofList, String.ofList_toList]
  have herror : ∀ cause, parseWith vocabulary input = .error cause →
      Explains (placedTokens 0 pieces) input.utf8ByteSize cause := by
    intro cause hcause
    rw [parseWith_of_tokens h, hfinish] at hcause
    rcases eq_error_of_bind hcause with hevaluate | ⟨value, _, hvalue⟩
    · exact Machine.explains_of_evaluate hevaluate
    · cases hvalue
  constructor
  · intro position hcause
    cases herror _ hcause with
    | arithmetic h => cases h
    | closing h => exact Or.inl h
    | opening hclosings h => exact Or.inr ⟨hclosings, h⟩
  · intro position hcause
    cases herror _ hcause with
    | arithmetic h => cases h
    | operand h => exact h
  · intro p hp
    rw [parseWith_of_tokens h] at hp
    obtain ⟨value, hvalue, _⟩ := eq_ok_of_bind hp
    exact Machine.isBalanced_of_evaluate hvalue

/-- Of two open parentheses the outer one lacks its partner. -/
theorem parseWith_pointsAtCulprit_unclosed :
    Vocabulary.standard.tokens "2(3+(4)".toList =
      .ok [⟨.number 2, 0⟩, ⟨.opening, 1⟩, ⟨.number 3, 2⟩, ⟨.plus, 3⟩, ⟨.opening, 4⟩,
        ⟨.number 4, 5⟩, ⟨.closing, 6⟩] ∧
      parse "2(3+(4)" = .error (.mismatchedParentheses 1) ∧
      PointsAtCulprit [⟨.number 2, 0⟩, ⟨.opening, 1⟩, ⟨.number 3, 2⟩, ⟨.plus, 3⟩, ⟨.opening, 4⟩,
        ⟨.number 4, 5⟩, ⟨.closing, 6⟩] 7 (parse "2(3+(4)") := by
  have htokens : Vocabulary.standard.tokens "2(3+(4)".toList =
      .ok [⟨.number 2, 0⟩, ⟨.opening, 1⟩, ⟨.number 3, 2⟩, ⟨.plus, 3⟩, ⟨.opening, 4⟩,
        ⟨.number 4, 5⟩, ⟨.closing, 6⟩] := by
    decide +kernel
  have hparse : parse "2(3+(4)" = .error (.mismatchedParentheses 1) := by
    rw [parse, parseWith, htokens]
    rfl
  exact ⟨htokens, hparse, (parseWith_pointsAtCulprit .standard "2(3+(4)" _ htokens).2⟩

end SparsePolynomial

end ExactAlgebra
