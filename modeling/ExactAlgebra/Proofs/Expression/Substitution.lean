import ExactAlgebra.Proofs.Expression.Binding
import ExactAlgebra.Proofs.Expression.Plain
import ExactAlgebra.Proofs.Expression.Reading
import ExactAlgebra.Proofs.Terms.Evaluation

/-!
Substituting a number for the variable before an expression is evaluated, or after. The machine that
reads the number has the values of the polynomials on its stack that the other machine has, and
waits for the same operators. Remainders are left out: they do not commute with evaluation.
-/

namespace ExactAlgebra

open Polynomial

namespace Operand

variable {symbol : Char} {a b c : Operand} {f g : ℚ[X]} {x : ℚ}

/-- The value of the operand where the variable has a given value. -/
def valueAt (x : ℚ) : Operand → ℚ
  | .number value => value
  | .polynomial p => p.evaluate x

def substitute (x : ℚ) (operand : Operand) : Operand :=
  .number (operand.valueAt x)

theorem Represents.valueAt_eq (h : Represents symbol a f) (x : ℚ) : a.valueAt x = f.eval x := by
  obtain ⟨rfl, _⟩ := h
  cases a with
  | number value =>
      have hconstant : (toPolynomial symbol (.number value)).terms.toPolynomial = C value :=
        SparsePolynomial.toPolynomial_constantIn _ _
      rw [hconstant, eval_C]
      rfl
  | polynomial p => exact Terms.evaluate_eq_eval p.terms x

/-- A constant has its value everywhere. -/
theorem valueAt_of_constant? {value : ℚ} (h : a.constant? = some value) (x : ℚ) :
    a.valueAt x = value := by
  cases a with
  | number other =>
      cases h
      rfl
  | polynomial p =>
      rw [constant?, SparsePolynomial.constantValue?] at h
      split at h
      · rename_i hdegree
        have hleading : p.terms.leading.exponent = 0 := hdegree
        rw [SparsePolynomial.coefficient?, Terms.get?, Terms.stored_eq_leading_cons,
          List.find?_cons_of_pos (by simp [hleading])] at h
        cases h
        have htail : p.terms.tail.list = [] := by
          rw [List.eq_nil_iff_forall_not_mem]
          intro t ht
          have hbelow := p.terms.below_tail t ht
          change t.exponent < p.terms.leading.exponent at hbelow
          omega
        change Terms.horner x p.terms.leading.coefficient p.terms.leading.exponent
          p.terms.tail.list = _
        rw [htail, hleading, Terms.horner, pow_zero, mul_one]
      · cases h

/-- An exponent stays the same when a number is substituted. -/
theorem exponent_substitute {n : Exponent} (h : a.exponent = .ok n) (x : ℚ) :
    (a.substitute x).exponent = .ok n := by
  rw [exponent] at h
  cases hconstant : a.constant? with
  | none =>
      rw [hconstant] at h
      cases h
  | some value =>
      rw [hconstant] at h
      rw [substitute, valueAt_of_constant? hconstant]
      exact h

theorem neg_substitute (ha : IsPlain symbol a) (x : ℚ) :
    (a.substitute x).neg = a.neg.substitute x := by
  obtain ⟨f, hf⟩ := ha
  rw [substitute, substitute, hf.neg.valueAt_eq, eval_neg, ← hf.valueAt_eq x]
  rfl

/-- An operator commutes with substituting a number for the variable. -/
theorem value_substitute {operator : Operator} (hoperator : operator ≠ .remainder)
    (ha : IsPlain symbol a) (hb : IsPlain symbol b) (h : operator.value a b = .ok c) (x : ℚ) :
    operator.value (a.substitute x) (b.substitute x) = .ok (c.substitute x) := by
  have hnegate := neg_substitute hb x
  obtain ⟨f, hf⟩ := ha
  obtain ⟨g, hg⟩ := hb
  cases operator with
  | add =>
      cases h
      rw [substitute, substitute, substitute, (hf.add hg).valueAt_eq, eval_add,
        ← hf.valueAt_eq x, ← hg.valueAt_eq x]
      rfl
  | subtract =>
      cases h
      rw [substitute, substitute, substitute, (hf.sub hg).valueAt_eq, eval_sub,
        ← hf.valueAt_eq x, ← hg.valueAt_eq x]
      rfl
  | multiply =>
      rw [substitute, substitute, substitute, (hf.mul hg h).valueAt_eq, eval_mul,
        ← hf.valueAt_eq x, ← hg.valueAt_eq x]
      rfl
  | remainder => exact absurd rfl hoperator
  | power =>
      obtain ⟨n, hn⟩ := exists_exponent_of_pow h
      change (a.substitute x).pow (b.substitute x) = _
      rw [Operand.pow, exponent_substitute hn x, substitute, substitute,
        (hf.pow hn h).valueAt_eq, eval_pow, ← hf.valueAt_eq x]
      rfl
  | negate =>
      cases h
      exact congrArg Except.ok hnegate

end Operand

namespace Machine

variable {symbol : Char} {x : ℚ} {values left : List Operand} {pending rest : List Pending}

/-- The values are plain, and no remainder waits. -/
structure IsPlain (symbol : Char) (values : List Operand) (pending : List Pending) : Prop where
  values : ∀ operand ∈ values, operand.IsPlain symbol
  pending : ∀ position, .operator .remainder position ∉ pending

def substitute (x : ℚ) (machine : Machine) : Machine :=
  ⟨machine.values.map (Operand.substitute x), machine.pending, machine.expectsOperand⟩

/-- The operator that waits on top acts in the same way on the numbers. -/
theorem apply_substitute {operator : Operator} {position : Nat}
    (hplain : IsPlain symbol values (.operator operator position :: pending))
    (h : operator.apply position values = .ok left) (x : ℚ) :
    IsPlain symbol left pending ∧
      operator.apply position (values.map (Operand.substitute x)) =
        .ok (left.map (Operand.substitute x)) := by
  have hpending : ∀ position, .operator .remainder position ∉ pending :=
    fun other hmem => hplain.pending other (List.mem_cons_of_mem _ hmem)
  have hoperator : operator ≠ .remainder := by
    rintro rfl
    exact hplain.pending position List.mem_cons_self
  have hvalues := hplain.values
  obtain ⟨a, others, rfl, rfl, rfl⟩ | ⟨a, b, c, others, hnegate, rfl, hvalue, rfl⟩ := apply_cases h
  · rw [List.forall_mem_cons] at hvalues
    obtain ⟨ha, hothers⟩ := hvalues
    refine ⟨⟨List.forall_mem_cons.2 ⟨ha.neg, hothers⟩, hpending⟩, ?_⟩
    rw [List.map_cons, List.map_cons, ← Operand.neg_substitute ha x]
    rfl
  · rw [List.forall_mem_cons, List.forall_mem_cons] at hvalues
    obtain ⟨hb, ha, hothers⟩ := hvalues
    refine ⟨⟨List.forall_mem_cons.2 ⟨ha.value hb hvalue, hothers⟩, hpending⟩, ?_⟩
    rw [List.map_cons, List.map_cons, apply_binary hnegate,
      Operand.value_substitute hoperator ha hb hvalue x]
    rfl

theorem reduce_substitute {level : Precedence} (hplain : IsPlain symbol values pending)
    (h : reduce level pending values = .ok (rest, left)) (x : ℚ) :
    IsPlain symbol left rest ∧
      reduce level pending (values.map (Operand.substitute x)) =
        .ok (rest, left.map (Operand.substitute x)) := by
  induction pending generalizing values with
  | nil =>
      cases h
      exact ⟨hplain, rfl⟩
  | cons entry pending ih =>
      cases entry with
      | opening position =>
          cases h
          exact ⟨hplain, rfl⟩
      | operator operator position =>
          rw [reduce] at h ⊢
          split at h
          · rename_i hlooser
            cases h
            exact ⟨hplain, if_pos hlooser⟩
          · rename_i htighter
            obtain ⟨next, happly, hnext⟩ := eq_ok_of_bind h
            obtain ⟨hplainNext, hsubstituted⟩ := apply_substitute hplain happly x
            obtain ⟨hrest, hreduced⟩ := ih hplainNext hnext
            rw [if_neg htighter, hsubstituted]
            exact ⟨hrest, hreduced⟩

theorem closeGroup_substitute {position : Nat} (hplain : IsPlain symbol values pending)
    (h : closeGroup position pending values = .ok (rest, left)) (x : ℚ) :
    IsPlain symbol left rest ∧
      closeGroup position pending (values.map (Operand.substitute x)) =
        .ok (rest, left.map (Operand.substitute x)) := by
  induction pending generalizing values with
  | nil => cases h
  | cons entry pending ih =>
      cases entry with
      | opening opened =>
          cases h
          exact ⟨⟨hplain.values, fun other hmem =>
            hplain.pending other (List.mem_cons_of_mem _ hmem)⟩, rfl⟩
      | operator operator opened =>
          obtain ⟨next, happly, hnext⟩ := eq_ok_of_bind h
          obtain ⟨hplainNext, hsubstituted⟩ := apply_substitute hplain happly x
          obtain ⟨hrest, hclosed⟩ := ih hplainNext hnext
          rw [closeGroup, hsubstituted]
          exact ⟨hrest, hclosed⟩

theorem drain_substitute (hplain : IsPlain symbol values pending)
    (h : drain pending values = .ok left) (x : ℚ) :
    drain pending (values.map (Operand.substitute x)) = .ok (left.map (Operand.substitute x)) := by
  induction pending generalizing values with
  | nil =>
      cases h
      rfl
  | cons entry pending ih =>
      cases entry with
      | opening opened => cases h
      | operator operator opened =>
          obtain ⟨next, happly, hnext⟩ := eq_ok_of_bind h
          obtain ⟨hplainNext, hsubstituted⟩ := apply_substitute hplain happly x
          rw [drain, hsubstituted]
          exact ih hplainNext hnext

variable {machine next : Machine} {placed : PlacedToken}

theorem pushBinary_substitute {operator : Operator} (hoperator : operator ≠ .remainder)
    {position : Nat} (hplain : IsPlain symbol machine.values machine.pending)
    (h : machine.pushBinary operator position = .ok next) (x : ℚ) :
    IsPlain symbol next.values next.pending ∧
      (machine.substitute x).pushBinary operator position = .ok (next.substitute x) := by
  rw [pushBinary_eq] at h ⊢
  obtain ⟨⟨rest, left⟩, hreduce, hnext⟩ := eq_ok_of_bind h
  cases hnext
  obtain ⟨hrest, hsubstituted⟩ := reduce_substitute hplain hreduce x
  refine ⟨⟨hrest.values, ?_⟩, ?_⟩
  · intro other hmem
    rcases List.mem_cons.1 hmem with heq | hmem
    · cases heq
      exact hoperator rfl
    · exact hrest.pending other hmem
  · change (do
      let state ← reduce operator.precedence machine.pending
        (machine.values.map (Operand.substitute x))
      return (⟨state.2, .operator operator position :: state.1, true⟩ : Machine)) = _
    rw [hsubstituted]
    rfl

theorem infixOperator_substitute {operator : Operator} (hoperator : operator ≠ .remainder)
    {position : Nat} (hplain : IsPlain symbol machine.values machine.pending)
    (h : machine.infixOperator operator position = .ok next) (x : ℚ) :
    IsPlain symbol next.values next.pending ∧
      (machine.substitute x).infixOperator operator position = .ok (next.substitute x) := by
  have hexpects := (shape_of_infixOperator h).1
  rw [infixOperator, hexpects] at h
  obtain ⟨hnext, hsubstituted⟩ := pushBinary_substitute hoperator hplain h x
  refine ⟨hnext, ?_⟩
  change (if machine.expectsOperand = true then _ else _) = _
  rw [hexpects]
  exact hsubstituted

theorem close_substitute {position : Nat}
    (hplain : IsPlain symbol machine.values machine.pending)
    (h : machine.close position = .ok next) (x : ℚ) :
    IsPlain symbol next.values next.pending ∧
      (machine.substitute x).close position = .ok (next.substitute x) := by
  obtain ⟨hexpects, hclose, hnextExpects⟩ := closeGroup_of_close h
  obtain ⟨hnext, hsubstituted⟩ := closeGroup_substitute hplain hclose x
  refine ⟨hnext, ?_⟩
  have hdepth : 0 < depth machine.pending := by
    obtain ⟨opened, hopenings⟩ := openings_of_closeGroup hclose
    rw [← length_openings, hopenings]
    exact Nat.succ_pos _
  have hgroup : (machine.substitute x).close position = (do
      let state ← closeGroup position machine.pending (machine.values.map (Operand.substitute x))
      return ⟨state.2, state.1, false⟩) := close_eq_closeGroup position hexpects hdepth
  rw [hgroup, hsubstituted, substitute, hnextExpects]
  rfl

theorem juxtapose_substitute (hplain : IsPlain symbol machine.values machine.pending)
    (h : machine.juxtapose placed = .ok next) (x : ℚ) :
    IsPlain symbol next.values next.pending ∧
      (machine.substitute x).juxtapose (placed.bind x) = .ok (next.substitute x) := by
  have hbegins : (placed.bind x).token.beginsOperand = placed.token.beginsOperand := by
    obtain ⟨token, position⟩ := placed
    cases token <;> rfl
  rw [juxtapose] at h ⊢
  rw [hbegins]
  split at h
  · rename_i hboth
    obtain ⟨hnext, hsubstituted⟩ := pushBinary_substitute (by decide) hplain h x
    refine ⟨hnext, ?_⟩
    exact (if_pos hboth).trans hsubstituted
  · rename_i hnot
    cases h
    exact ⟨hplain, if_neg hnot⟩

theorem isPlain_pushValue {value : Operand} (hvalue : value.IsPlain symbol)
    (hplain : IsPlain symbol values pending) : IsPlain symbol (value :: values) pending :=
  ⟨List.forall_mem_cons.2 ⟨hvalue, hplain.values⟩, hplain.pending⟩

theorem isPlain_pushPending {entry : Pending}
    (hentry : ∀ position, entry ≠ .operator .remainder position)
    (hplain : IsPlain symbol values pending) : IsPlain symbol values (entry :: pending) := by
  refine ⟨hplain.values, ?_⟩
  intro position hmem
  rcases List.mem_cons.1 hmem with heq | hmem
  · exact hentry position heq.symm
  · exact hplain.pending position hmem

theorem substitute_symbolOperand (symbol : Char) (x : ℚ) :
    (symbolOperand symbol).substitute x = .number x := by
  rw [Operand.substitute, (Operand.represents_symbol symbol).valueAt_eq, eval_X]

theorem take_substitute (hpercent : placed.token ≠ .percent)
    (hplain : IsPlain symbol machine.values machine.pending)
    (h : machine.take symbol placed = .ok next) (x : ℚ) :
    IsPlain symbol next.values next.pending ∧
      (machine.substitute x).take symbol (placed.bind x) = .ok (next.substitute x) := by
  obtain ⟨token, position⟩ := placed
  cases token with
  | number value | constant value =>
      cases h
      exact ⟨isPlain_pushValue (Operand.isPlain_number symbol value) hplain, rfl⟩
  | symbol =>
      cases h
      refine ⟨isPlain_pushValue (Operand.isPlain_symbol symbol) hplain, ?_⟩
      change Except.ok (Machine.mk _ _ _) = Except.ok (Machine.mk _ _ _)
      rw [pushValue, List.map_cons, substitute_symbolOperand]
      rfl
  | opening =>
      cases h
      exact ⟨isPlain_pushPending (fun _ heq => (by cases heq)) hplain, rfl⟩
  | closing => exact close_substitute hplain h x
  | plus =>
      simp only [take] at h
      split at h
      · rename_i hexpects
        cases h
        exact ⟨hplain, if_pos hexpects⟩
      · rename_i hexpects
        obtain ⟨hnext, hsubstituted⟩ := pushBinary_substitute (by decide) hplain h x
        exact ⟨hnext, (if_neg hexpects).trans hsubstituted⟩
  | minus =>
      simp only [take] at h
      split at h
      · rename_i hexpects
        cases h
        exact ⟨isPlain_pushPending (fun _ heq => (by cases heq)) hplain, if_pos hexpects⟩
      · rename_i hexpects
        obtain ⟨hnext, hsubstituted⟩ := pushBinary_substitute (by decide) hplain h x
        exact ⟨hnext, (if_neg hexpects).trans hsubstituted⟩
  | star | caret => exact infixOperator_substitute (by decide) hplain h x
  | percent => exact absurd rfl hpercent

/-- One step over numbers does what the step over polynomials does. -/
theorem step_substitute (hpercent : placed.token ≠ .percent)
    (hplain : IsPlain symbol machine.values machine.pending)
    (h : machine.step symbol placed = .ok next) (x : ℚ) :
    IsPlain symbol next.values next.pending ∧
      (machine.substitute x).step symbol (placed.bind x) = .ok (next.substitute x) := by
  obtain ⟨ready, hready, htake⟩ := eq_ok_of_bind h
  obtain ⟨hreadyPlain, hreadySubstituted⟩ := juxtapose_substitute hplain hready x
  obtain ⟨hnext, hsubstituted⟩ := take_substitute hpercent hreadyPlain htake x
  rw [step, hreadySubstituted]
  exact ⟨hnext, hsubstituted⟩

theorem run_substitute {tokens : List PlacedToken}
    (hpercent : ∀ placed ∈ tokens, placed.token ≠ .percent)
    (hplain : IsPlain symbol machine.values machine.pending)
    (h : machine.run symbol tokens = .ok next) (x : ℚ) :
    IsPlain symbol next.values next.pending ∧
      (machine.substitute x).run symbol (tokens.map (PlacedToken.bind x)) =
        .ok (next.substitute x) := by
  induction tokens generalizing machine with
  | nil =>
      cases h
      exact ⟨hplain, rfl⟩
  | cons placed rest ih =>
      rw [List.forall_mem_cons] at hpercent
      obtain ⟨middle, hstep, hrun⟩ := eq_ok_of_bind h
      obtain ⟨hmiddle, hsubstituted⟩ := step_substitute hpercent.1 hplain hstep x
      obtain ⟨hnext, hrest⟩ := ih hpercent.2 hmiddle hrun
      rw [List.map_cons, run, hsubstituted]
      exact ⟨hnext, hrest⟩

theorem finish_substitute {position : Nat} {value : Operand}
    (hplain : IsPlain symbol machine.values machine.pending)
    (h : machine.finish position = .ok value) (x : ℚ) :
    (machine.substitute x).finish position = .ok (value.substitute x) := by
  rw [finish] at h
  split at h
  · cases h
  · rename_i hexpects
    obtain ⟨left, hdrain, hvalue⟩ := eq_ok_of_bind h
    cases left with
    | nil => cases hvalue
    | cons top others =>
        cases hvalue
        have hwaits : ¬ (machine.substitute x).expectsOperand = true := hexpects
        have hsubstituted : drain (machine.substitute x).pending (machine.substitute x).values =
            .ok ((value :: others).map (Operand.substitute x)) := drain_substitute hplain hdrain x
        rw [finish, if_neg hwaits, hsubstituted]
        rfl

theorem evaluate_substitute {tokens : List PlacedToken} {position : Nat} {value : Operand}
    (hpercent : ∀ placed ∈ tokens, placed.token ≠ .percent)
    (h : evaluate symbol tokens position = .ok value) (x : ℚ) :
    evaluate symbol (tokens.map (PlacedToken.bind x)) position = .ok (value.substitute x) := by
  have hplain : IsPlain symbol initial.values initial.pending :=
    ⟨fun _ hmem => (by cases hmem), fun _ hmem => (by cases hmem)⟩
  obtain ⟨machine, hrun, hfinish⟩ := eq_ok_of_bind h
  obtain ⟨hmachine, hsubstituted⟩ := run_substitute hpercent hplain hrun x
  have hinitial : run symbol initial (tokens.map (PlacedToken.bind x)) =
      .ok (machine.substitute x) := hsubstituted
  rw [evaluate, hinitial]
  exact finish_substitute hmachine hfinish x

end Machine

namespace SparsePolynomial

theorem evaluate_configure_toPolynomial (vocabulary : Vocabulary) (symbol : Char) (value : Operand)
    (x : ℚ) : (vocabulary.configure (value.toPolynomial symbol)).evaluate x = value.valueAt x := by
  cases value with
  | number value =>
      change (Operand.promote symbol value).terms.evaluate x = value
      rw [Terms.evaluate_eq_eval, Operand.promote, toPolynomial_constantIn, eval_C]
  | polynomial p => rfl

/-- Reading an expression without remainders while the variable is bound to a number gives the value
of the polynomial that the expression stands for. -/
theorem parseWith_bindSymbol {vocabulary : Vocabulary} {input : String} {tokens : List PlacedToken}
    {p : SparsePolynomial}
    (hfree : vocabulary.constant? (String.singleton vocabulary.symbol) = none)
    (htokens : vocabulary.tokens input.toList = .ok tokens)
    (hpercent : ∀ placed ∈ tokens, placed.token ≠ .percent)
    (h : parseWith vocabulary input = .ok p) (x : ℚ) :
    parseWith (vocabulary.withConstant (String.singleton vocabulary.symbol) x) input =
      .ok (constantIn vocabulary.setting (p.evaluate x)) := by
  rw [parseWith_of_tokens htokens] at h
  obtain ⟨value, hvalue, hconfigured⟩ := eq_ok_of_bind h
  cases hconfigured
  change parseWith (vocabulary.bindSymbol x) input = _
  have hsetting := vocabulary.setting_bindSymbol x
  have hsymbol : (vocabulary.bindSymbol x).symbol = vocabulary.symbol :=
    congrArg Setting.symbol hsetting
  rw [parseWith_of_tokens (Vocabulary.tokens_bindSymbol hfree htokens), hsymbol,
    Machine.evaluate_substitute hpercent hvalue x, evaluate_configure_toPolynomial]
  change Except.ok { constantIn (Setting.plain vocabulary.symbol) (value.valueAt x) with
    setting := (vocabulary.bindSymbol x).setting.over (.plain vocabulary.symbol) } = _
  rw [Setting.over_plain, hsetting]
  rfl

/-- The variable `x` beside a constant whose name begins with it. -/
def shadowingVocabulary : Vocabulary :=
  Vocabulary.standard.withConstant "xy" 3

theorem tokens_shadowing : shadowingVocabulary.tokens "xyx - x".toList =
    .ok [⟨.constant 3, 0⟩, ⟨.symbol, 2⟩, ⟨.minus, 4⟩, ⟨.symbol, 6⟩] := by
  cbv

theorem parseWith_bindSymbol_shadowing :
    ∃ p, parseWith shadowingVocabulary "xyx - x" = .ok p ∧
      parseWith (shadowingVocabulary.withConstant "x" 5) "xyx - x" =
        .ok (constantIn .standard (p.evaluate 5)) := by
  have hvalue : ∃ value, Machine.evaluate 'x'
      [⟨.constant 3, 0⟩, ⟨.symbol, 2⟩, ⟨.minus, 4⟩, ⟨.symbol, 6⟩] 7 = .ok value := ⟨_, rfl⟩
  obtain ⟨value, hvalue⟩ := hvalue
  have hparse : parseWith shadowingVocabulary "xyx - x" =
      .ok (shadowingVocabulary.configure (value.toPolynomial 'x')) := by
    rw [parseWith_of_tokens tokens_shadowing]
    change (do
      let value ← Machine.evaluate 'x' _ 7
      return shadowingVocabulary.configure (value.toPolynomial 'x')) = _
    rw [hvalue]
    rfl
  exact ⟨_, hparse, parseWith_bindSymbol (by decide) tokens_shadowing (by decide) hparse 5⟩

end SparsePolynomial

end ExactAlgebra
