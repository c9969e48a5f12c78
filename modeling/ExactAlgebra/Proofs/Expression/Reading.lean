import ExactAlgebra.Proofs.Expression.Shape

/-!
How the machine reads a phrase. Operators that bind at least as tightly as the phrase may still wait
when its last token is read, and may fail only later; so the statement about a phrase is one about
the reduction that follows it: letting the waiting operators act puts the value of the tree on the
stack, and then goes on with what waited before the phrase.
-/

namespace ExactAlgebra

/-- The operator that a token stands for between two operands. -/
def Token.infix? : Token → Option Operator
  | .plus => some .add
  | .minus => some .subtract
  | .star => some .multiply
  | .percent => some .remainder
  | .caret => some .power
  | _ => none

/-- The tree of an operator on two trees. A negation looks at the right one only. -/
def Operator.tree (left right : Tree) : Operator → Tree
  | .add => .add left right
  | .subtract => .subtract left right
  | .multiply => .multiply left right
  | .remainder => .remainder left right
  | .power => .power left right
  | .negate => .negate right

/-- The machine computes for an operator what its tree stands for. -/
theorem value_tree {token : Token} {operator : Operator} (h : token.infix? = some operator)
    (symbol : Char) (a b : Tree) :
    (operator.tree a b).value symbol = (do
      let x ← a.value symbol
      let y ← b.value symbol
      operator.value x y) := by
  cases token <;> cases h <;> rfl

/-- The machine's operators of products are those of the grammar. -/
theorem Phrase.product_of_infix {left right : List Token} {a b : Tree} {token : Token}
    {operator : Operator} (hleft : Phrase .product left a)
    (htoken : token.infix? = some operator) (hlevel : operator.precedence = .product)
    (hright : Phrase .signed right b) :
    Phrase .product (left ++ token :: right) (operator.tree a b) := by
  cases token <;> cases htoken <;> cases hlevel
  · exact .productStar hleft hright
  · exact .productPercent hleft hright

/-- The machine's operators of sums are those of the grammar. -/
theorem Phrase.sum_of_infix {left right : List Token} {a b : Tree} {token : Token}
    {operator : Operator} (hleft : Phrase .sum left a)
    (htoken : token.infix? = some operator) (hlevel : operator.precedence = .sum)
    (hright : Phrase .product right b) :
    Phrase .sum (left ++ token :: right) (operator.tree a b) := by
  cases token <;> cases htoken <;> cases hlevel
  · exact .sumPlus hleft hright
  · exact .sumMinus hleft hright

namespace Machine

variable {symbol : Char} {level : Precedence} {pending : List Pending}

/-- Lets the waiting operators act that bind at least as tightly as a level. -/
def settle (level : Precedence) (machine : Machine) :
    Except Error (List Pending × List Operand) :=
  reduce level machine.pending machine.values

/-- Nothing on top of the stack acts at a level. -/
def Waits (level : Precedence) : List Pending → Prop
  | .operator operator _ :: _ => operator.precedence.rank < level.rank
  | _ => True

theorem reduce_of_waits (h : Waits level pending) (values : List Operand) :
    reduce level pending values = .ok (pending, values) := by
  match pending with
  | [] => rfl
  | .opening position :: rest => rfl
  | .operator operator position :: rest =>
      rw [reduce]
      exact if_pos h

theorem reduce_operator {operator : Operator} (h : level.rank ≤ operator.precedence.rank)
    (position : Nat) (pending : List Pending) (values : List Operand) :
    reduce level (.operator operator position :: pending) values = (do
      let values ← operator.apply position values
      reduce level pending values) := by
  rw [reduce]
  exact if_neg (Nat.not_lt.2 h)

theorem apply_of_operator {token : Token} {operator : Operator}
    (h : token.infix? = some operator) (position : Nat) (left right : Operand)
    (values : List Operand) :
    operator.apply position (right :: left :: values) =
      (operator.value left right).map (· :: values) := by
  cases token <;> cases h <;> rfl

/-- Reading the tokens on top of what waits, and then letting operators act down to a level, puts
the value of the tree on the stack and lets what waited before act. -/
def EvaluatesIn (symbol : Char) (tokens : List Token) (tree : Tree) (pending : List Pending)
    (level : Precedence) : Prop :=
  ∀ placed : List PlacedToken, placed.map PlacedToken.token = tokens → ∀ values : List Operand,
    (do
      let next ← run symbol ⟨values, pending, true⟩ placed
      next.settle level) = (do
      let value ← tree.value symbol
      reduce level pending (value :: values))

theorem step_eq_take {machine : Machine} {placed : PlacedToken}
    (h : machine.expectsOperand = true ∨ placed.token.beginsOperand = false) :
    machine.step symbol placed = machine.take symbol placed := by
  have hready : machine.juxtapose placed = .ok machine := by
    rw [juxtapose, if_neg]
    rcases h with h | h <;> simp [h]
  rw [step, hready]
  rfl

theorem step_operator {machine : Machine} {placed : PlacedToken} {operator : Operator}
    (hexpects : machine.expectsOperand = false) (htoken : placed.token.infix? = some operator) :
    machine.step symbol placed = machine.pushBinary operator placed.position := by
  obtain ⟨token, position⟩ := placed
  have hbegins : token.beginsOperand = false := by
    cases token <;> first | rfl | cases htoken
  rw [step_eq_take (Or.inr hbegins)]
  cases token <;> cases htoken <;> simp only [take, infixOperator, hexpects] <;> rfl

theorem step_juxtaposed {machine : Machine} {placed : PlacedToken}
    (hexpects : machine.expectsOperand = false)
    (hbegins : placed.token.beginsOperand = true) :
    machine.step symbol placed = (do
      let ready ← machine.pushBinary .multiply placed.position
      ready.take symbol placed) := by
  have hready : machine.juxtapose placed = machine.pushBinary .multiply placed.position := by
    rw [juxtapose, if_pos]
    simp [hexpects, hbegins]
  rw [step, hready]

/-- What was read ends with an operand, and an operator follows. -/
theorem run_operator {machine : Machine} {left right : List PlacedToken} {placed : PlacedToken}
    {operator : Operator}
    (hends : expectsAfter machine.expectsOperand (left.map PlacedToken.token) = false)
    (htoken : placed.token.infix? = some operator) :
    machine.run symbol (left ++ placed :: right) = (do
      let next ← machine.run symbol left
      let state ← next.settle operator.precedence
      run symbol ⟨state.2, .operator operator placed.position :: state.1, true⟩ right) := by
  rw [run_append]
  apply bind_congr_ok
  intro next hrun
  have hexpects : next.expectsOperand = false := by
    rw [(shape_of_run hrun).1, hends]
  rw [run, step_operator hexpects htoken, pushBinary_eq, bind_assoc]
  rfl

/-- What was read ends with an operand, and an operand follows. -/
theorem run_juxtaposed {machine : Machine} {left right : List PlacedToken} {placed : PlacedToken}
    (hends : expectsAfter machine.expectsOperand (left.map PlacedToken.token) = false)
    (hbegins : placed.token.beginsOperand = true) :
    machine.run symbol (left ++ placed :: right) = (do
      let next ← machine.run symbol left
      let state ← next.settle .product
      run symbol ⟨state.2, .operator .multiply placed.position :: state.1, true⟩
        (placed :: right)) := by
  rw [run_append]
  apply bind_congr_ok
  intro next hrun
  have hexpects : next.expectsOperand = false := by
    rw [(shape_of_run hrun).1, hends]
  rw [run, step_juxtaposed hexpects hbegins, pushBinary_eq, bind_assoc, bind_assoc]
  apply bind_congr_ok
  intro state _
  rw [run, step_eq_take (Or.inl rfl)]
  rfl

/-- The stack after an infix operator acted on the values of two trees. -/
theorem evaluatesIn_binary {left right : List PlacedToken} {a b : Tree} {operator : Operator}
    {token : Token} {position : Nat} {values : List Operand} (htoken : token.infix? = some operator)
    (hlevel : level.rank ≤ operator.precedence.rank)
    (hwaits : Waits operator.precedence pending)
    (hleft : EvaluatesIn symbol (left.map PlacedToken.token) a pending operator.precedence)
    (hright : EvaluatesIn symbol (right.map PlacedToken.token) b
      (.operator operator position :: pending) level) :
    (do
      let next ← run symbol ⟨values, pending, true⟩ left
      let state ← next.settle operator.precedence
      let last ← run symbol ⟨state.2, .operator operator position :: state.1, true⟩ right
      last.settle level) = (do
      let value ← (operator.tree a b).value symbol
      reduce level pending (value :: values)) := by
  rw [← bind_assoc, hleft left rfl, value_tree htoken, bind_assoc, bind_assoc]
  apply bind_congr_ok
  intro x _
  rw [reduce_of_waits hwaits]
  change (do
    let last ← run symbol ⟨x :: values, .operator operator position :: pending, true⟩ right
    last.settle level) = _
  rw [hright right rfl, bind_assoc]
  apply bind_congr_ok
  intro y _
  rw [reduce_operator hlevel, apply_of_operator htoken]
  cases operator.value x y <;> rfl

theorem evaluatesIn_operator {left right : List Token} {a b : Tree} {token : Token}
    {operator : Operator} (htoken : token.infix? = some operator)
    (hlevel : level.rank ≤ operator.precedence.rank) (hends : ∀ e, expectsAfter e left = false)
    (hwaits : Waits operator.precedence pending)
    (hleft : EvaluatesIn symbol left a pending operator.precedence)
    (hright : ∀ position, EvaluatesIn symbol right b
      (.operator operator position :: pending) level) :
    EvaluatesIn symbol (left ++ token :: right) (operator.tree a b) pending level := by
  intro placed hplaced values
  obtain ⟨first, others, rfl, rfl, hothers⟩ := List.map_eq_append_iff.1 hplaced
  obtain ⟨middle, last, rfl, rfl, rfl⟩ := List.map_eq_cons_iff.1 hothers
  rw [run_operator (hends _) htoken, bind_assoc]
  simp only [bind_assoc]
  exact evaluatesIn_binary htoken hlevel hwaits hleft (hright middle.position)

/-- What follows the operator may stand behind everything that binds more loosely than a level. -/
theorem evaluatesIn_infix {left right : List Token} {a b : Tree} {token : Token}
    {operator : Operator} {tighter : Precedence} (htoken : token.infix? = some operator)
    (hlevel : level.rank ≤ operator.precedence.rank)
    (htighter : operator.precedence.rank < tighter.rank)
    (hends : ∀ e, expectsAfter e left = false) (hwaits : Waits operator.precedence pending)
    (hleft : EvaluatesIn symbol left a pending operator.precedence)
    (hright : ∀ pending, Waits tighter pending → EvaluatesIn symbol right b pending level) :
    EvaluatesIn symbol (left ++ token :: right) (operator.tree a b) pending level := by
  apply evaluatesIn_operator htoken hlevel hends hwaits hleft
  intro position
  exact hright _ htighter

theorem evaluatesIn_juxtaposed {left right : List Token} {a b : Tree} {token : Token}
    (hbegins : token.beginsOperand = true) (hlevel : level.rank ≤ Precedence.product.rank)
    (hends : ∀ e, expectsAfter e left = false) (hwaits : Waits .product pending)
    (hleft : EvaluatesIn symbol left a pending .product)
    (hright : ∀ position, EvaluatesIn symbol (token :: right) b
      (.operator .multiply position :: pending) level) :
    EvaluatesIn symbol (left ++ token :: right) (.multiply a b) pending level := by
  intro placed hplaced values
  obtain ⟨first, others, rfl, rfl, hothers⟩ := List.map_eq_append_iff.1 hplaced
  obtain ⟨middle, last, rfl, rfl, rfl⟩ := List.map_eq_cons_iff.1 hothers
  rw [run_juxtaposed (hends _) hbegins, bind_assoc]
  simp only [bind_assoc]
  have hstar : Token.star.infix? = some .multiply := rfl
  exact evaluatesIn_binary hstar hlevel hwaits hleft (hright middle.position)

theorem evaluatesIn_leaf {token : Token} {tree : Tree} (htoken : token.leaf? = some tree) :
    EvaluatesIn symbol [token] tree pending level := by
  intro placed hplaced values
  obtain ⟨first, others, rfl, rfl, hothers⟩ := List.map_eq_cons_iff.1 hplaced
  obtain rfl := List.map_eq_nil_iff.1 hothers
  obtain ⟨token, position⟩ := first
  rw [run, step_eq_take (Or.inl rfl)]
  cases token <;> cases htoken <;> rfl

theorem evaluatesIn_minus {tokens : List Token} {tree : Tree}
    (hlevel : level.rank ≤ Precedence.sign.rank)
    (h : ∀ position, EvaluatesIn symbol tokens tree
      (.operator .negate position :: pending) level) :
    EvaluatesIn symbol (.minus :: tokens) (.negate tree) pending level := by
  intro placed hplaced values
  obtain ⟨first, others, rfl, hfirst, hothers⟩ := List.map_eq_cons_iff.1 hplaced
  obtain ⟨token, position⟩ := first
  cases hfirst
  rw [run, step_eq_take (Or.inl rfl), Tree.value, bind_assoc]
  change (do
    let next ← run symbol ⟨values, .operator .negate position :: pending, true⟩ others
    next.settle level) = _
  rw [h position others hothers, bind_assoc]
  apply bind_congr_ok
  intro value _
  rw [reduce_operator hlevel]
  rfl

/-- Any number of signs before a phrase. The phrase itself may only follow what does not act at the
level of powers; a sign before it is such. -/
theorem evaluatesIn_signs {tokens : List Token} {tree : Tree} (signs : Nat)
    (hlevel : level.rank ≤ Precedence.sign.rank)
    (h : ∀ pending, Waits .power pending → EvaluatesIn symbol tokens tree pending level)
    (hpending : signs = 0 → Waits .power pending) :
    EvaluatesIn symbol (List.replicate signs .minus ++ tokens) (.negations signs tree)
      pending level := by
  induction signs generalizing pending with
  | zero => exact h pending (hpending rfl)
  | succ signs ih =>
      rw [List.replicate_succ, List.cons_append, Tree.negations]
      apply evaluatesIn_minus hlevel
      intro position
      apply ih
      intro _
      exact (by decide : Precedence.sign.rank < Precedence.power.rank)

/-- Closing a group lets everything act that waits in it. -/
theorem closeGroup_eq_reduce (position : Nat) (pending : List Pending) (values : List Operand) :
    closeGroup position pending values = (do
      let state ← reduce .sum pending values
      closeGroup position state.1 state.2) := by
  induction pending generalizing values with
  | nil => rfl
  | cons entry pending ih =>
      cases entry with
      | opening opened => rfl
      | operator operator operatorPosition =>
          rw [closeGroup, reduce_operator (Nat.zero_le _), bind_assoc]
          apply bind_congr_ok
          intro next _
          exact ih next

/-- The end of an expression lets everything act that waits. -/
theorem drain_eq_reduce (pending : List Pending) (values : List Operand) :
    drain pending values = (do
      let state ← reduce .sum pending values
      drain state.1 state.2) := by
  induction pending generalizing values with
  | nil => rfl
  | cons entry pending ih =>
      cases entry with
      | opening opened => rfl
      | operator operator operatorPosition =>
          rw [drain, reduce_operator (Nat.zero_le _), bind_assoc]
          apply bind_congr_ok
          intro next _
          exact ih next

theorem isOpening_of_depth_pos (h : 0 < depth pending) :
    pending.any Pending.isOpening = true := by
  rw [depth, List.countP_pos_iff] at h
  exact List.any_eq_true.2 h

theorem close_eq_closeGroup {machine : Machine} (position : Nat)
    (hexpects : machine.expectsOperand = false) (hdepth : 0 < depth machine.pending) :
    machine.close position = (do
      let state ← closeGroup position machine.pending machine.values
      return ⟨state.2, state.1, false⟩) := by
  rw [close, if_pos (isOpening_of_depth_pos hdepth), hexpects]
  rfl

theorem evaluatesIn_group {tokens : List Token} {tree : Tree}
    (hends : ∀ e, expectsAfter e tokens = false)
    (hbalanced : tokens.count .opening = tokens.count .closing)
    (h : ∀ position, EvaluatesIn symbol tokens tree (.opening position :: pending) .sum) :
    EvaluatesIn symbol (.opening :: (tokens ++ [.closing])) tree pending level := by
  intro placed hplaced values
  obtain ⟨first, others, rfl, hfirst, hothers⟩ := List.map_eq_cons_iff.1 hplaced
  obtain ⟨inner, last, rfl, rfl, hlast⟩ := List.map_eq_append_iff.1 hothers
  obtain ⟨closing, empty, rfl, hclosing, hempty⟩ := List.map_eq_cons_iff.1 hlast
  obtain rfl := List.map_eq_nil_iff.1 hempty
  obtain ⟨token, position⟩ := first
  cases hfirst
  rw [run, step_eq_take (Or.inl rfl)]
  change (do
    let next ← run symbol ⟨values, .opening position :: pending, true⟩ (inner ++ [closing])
    next.settle level) = _
  have hclose : run symbol ⟨values, .opening position :: pending, true⟩ (inner ++ [closing]) = (do
      let next ← run symbol ⟨values, .opening position :: pending, true⟩ inner
      let state ← next.settle .sum
      let state ← closeGroup closing.position state.1 state.2
      return ⟨state.2, state.1, false⟩) := by
    rw [run_append]
    apply bind_congr_ok
    intro next hrun
    obtain ⟨hexpects, hdepth⟩ := shape_of_run hrun
    rw [hends] at hexpects
    have hpositive : 0 < depth next.pending := by
      rw [depth_opening_cons, hbalanced] at hdepth
      omega
    have htake : next.step symbol closing = next.close closing.position := by
      obtain ⟨token, closed⟩ := closing
      cases hclosing
      exact step_eq_take (Or.inr rfl)
    rw [run, htake, close_eq_closeGroup _ hexpects hpositive, closeGroup_eq_reduce, bind_assoc,
      bind_assoc]
    rfl
  rw [hclose, bind_assoc]
  simp only [bind_assoc]
  rw [← bind_assoc, h position inner rfl, bind_assoc]
  rfl

/-- The tightest level at which everything in a phrase has acted. -/
def phraseLevel (category : Category) : Precedence :=
  match category with
  | .sum => .sum
  | .product => .product
  | .signed | .power => .sign
  | .chain | .atom => .power

/-- Where a phrase can stand: what waits before it must not act on a part of it. -/
def Follows (category : Category) (pending : List Pending) : Prop :=
  match category with
  | .sum => Waits .sum pending
  | .product => Waits .product pending
  | .signed | .power | .chain => Waits .power pending
  | .atom => True

theorem Waits.mono {low high : Precedence} (h : Waits low pending) (hle : low.rank ≤ high.rank) :
    Waits high pending := by
  match pending with
  | [] => trivial
  | .opening position :: rest => trivial
  | .operator operator position :: rest => exact Nat.lt_of_lt_of_le h hle

/-- Every phrase is read as the value of its tree. -/
theorem evaluatesIn_of_phrase {category : Category} {tokens : List Token} {tree : Tree}
    (h : Phrase category tokens tree) (symbol : Char) {pending : List Pending}
    (hfollows : Follows category pending) {level : Precedence}
    (hlevel : level.rank ≤ (phraseLevel category).rank) :
    EvaluatesIn symbol tokens tree pending level := by
  induction h generalizing pending level with
  | leaf htoken => exact evaluatesIn_leaf htoken
  | group h ih =>
      apply evaluatesIn_group h.expectsAfter_eq_false h.count_opening_eq_count_closing
      intro position
      have hgroup : Follows .sum (.opening position :: pending) := trivial
      exact ih hgroup (Nat.le_refl _)
  | chainAtom h ih => exact ih trivial hlevel
  | chainPower hleft hright ihLeft ihRight =>
      have hcaret : Token.caret.infix? = some .power := rfl
      apply evaluatesIn_operator hcaret hlevel hleft.expectsAfter_eq_false hfollows
      · exact ihLeft hfollows (Nat.le_refl _)
      · intro position
        exact ihRight trivial hlevel
  | powerChain h ih => exact ih hfollows (Nat.le_trans hlevel (by decide))
  | powerSigned signs hleft hright ihLeft ihRight =>
      have hcaret : Token.caret.infix? = some .power := rfl
      have hpower : level.rank ≤ Precedence.power.rank := Nat.le_trans hlevel (by decide)
      apply evaluatesIn_operator hcaret hpower hleft.expectsAfter_eq_false hfollows
      · exact ihLeft hfollows (Nat.le_refl _)
      · intro position
        apply evaluatesIn_signs (signs + 1) hlevel
        · intro pending hpending
          exact ihRight hpending hlevel
        · intro hzero
          cases hzero
  | signs signs h ih =>
      apply evaluatesIn_signs signs hlevel
      · intro pending hpending
        exact ih hpending hlevel
      · intro _
        exact hfollows
  | productSigned h ih =>
      exact ih (hfollows.mono (by decide)) (Nat.le_trans hlevel (by decide))
  | productStar hleft hright ihLeft ihRight =>
      have hstar : Token.star.infix? = some .multiply := rfl
      have hpower : Precedence.product.rank < Precedence.power.rank := by decide
      apply evaluatesIn_infix hstar hlevel hpower hleft.expectsAfter_eq_false hfollows
      · exact ihLeft hfollows (Nat.le_refl _)
      · intro pending hpending
        exact ihRight hpending (Nat.le_trans hlevel (by decide))
  | productPercent hleft hright ihLeft ihRight =>
      have hpercent : Token.percent.infix? = some .remainder := rfl
      have hpower : Precedence.product.rank < Precedence.power.rank := by decide
      apply evaluatesIn_infix hpercent hlevel hpower hleft.expectsAfter_eq_false hfollows
      · exact ihLeft hfollows (Nat.le_refl _)
      · intro pending hpending
        exact ihRight hpending (Nat.le_trans hlevel (by decide))
  | productJuxtaposed hleft hright ihLeft ihRight =>
      obtain ⟨token, rest, rfl, hbegins⟩ := hright.exists_cons_beginsOperand (Or.inl rfl)
      apply evaluatesIn_juxtaposed hbegins hlevel hleft.expectsAfter_eq_false hfollows
      · exact ihLeft hfollows (Nat.le_refl _)
      · intro position
        apply ihRight
        · exact (by decide : Precedence.product.rank < Precedence.power.rank)
        · exact Nat.le_trans hlevel (by decide)
  | sumProduct h ih => exact ih (hfollows.mono (by decide)) (Nat.le_trans hlevel (by decide))
  | sumPlus hleft hright ihLeft ihRight =>
      have hplus : Token.plus.infix? = some .add := rfl
      have hproduct : Precedence.sum.rank < Precedence.product.rank := by decide
      apply evaluatesIn_infix hplus hlevel hproduct hleft.expectsAfter_eq_false hfollows
      · exact ihLeft hfollows (Nat.le_refl _)
      · intro pending hpending
        exact ihRight hpending (Nat.le_trans hlevel (by decide))
  | sumMinus hleft hright ihLeft ihRight =>
      have hminus : Token.minus.infix? = some .subtract := rfl
      have hproduct : Precedence.sum.rank < Precedence.product.rank := by decide
      apply evaluatesIn_infix hminus hlevel hproduct hleft.expectsAfter_eq_false hfollows
      · exact ihLeft hfollows (Nat.le_refl _)
      · intro pending hpending
        exact ihRight hpending (Nat.le_trans hlevel (by decide))

/-- The end of an expression after an operand begins by letting everything act that waits. -/
theorem finish_eq_settle {machine : Machine} (hexpects : machine.expectsOperand = false)
    (position : Nat) :
    machine.finish position = (do
      let state ← machine.settle .sum
      finish ⟨state.2, state.1, false⟩ position) := by
  rw [finish, hexpects, drain_eq_reduce, bind_assoc]
  rfl

/-- The value of a whole expression is that of its tree, whether or not the tree has one. -/
theorem evaluate_of_phrase {tokens : List PlacedToken} {tree : Tree}
    (h : Phrase .sum (tokens.map PlacedToken.token) tree) (symbol : Char) (position : Nat) :
    evaluate symbol tokens position = tree.value symbol := by
  have hfinish : evaluate symbol tokens position = (do
      let next ← run symbol initial tokens
      let state ← next.settle .sum
      finish ⟨state.2, state.1, false⟩ position) := by
    rw [evaluate]
    apply bind_congr_ok
    intro next hrun
    have hexpects : next.expectsOperand = false := by
      rw [(shape_of_run hrun).1, h.expectsAfter_eq_false]
    exact finish_eq_settle hexpects position
  have hfollows : Follows .sum [] := trivial
  have hread : EvaluatesIn symbol (tokens.map PlacedToken.token) tree [] .sum :=
    evaluatesIn_of_phrase h symbol hfollows (Nat.le_refl _)
  rw [hfinish, ← bind_assoc]
  change (do
    let state ← (do
      let next ← run symbol ⟨[], [], true⟩ tokens
      next.settle .sum)
    finish ⟨state.2, state.1, false⟩ position) = _
  rw [hread tokens rfl, bind_assoc]
  cases tree.value symbol <;> rfl

end Machine

namespace SparsePolynomial

/-- Where a text has tokens, the rest of its reading is about them. -/
theorem parseWith_of_tokens {vocabulary : Vocabulary} {input : String} {tokens : List PlacedToken}
    (h : vocabulary.tokens input.toList = .ok tokens) :
    parseWith vocabulary input = (do
      let value ← Machine.evaluate vocabulary.symbol tokens (byteLength input.toList)
      return vocabulary.configure (value.toPolynomial vocabulary.symbol)) := by
  rw [parseWith, h]
  rfl

end SparsePolynomial

end ExactAlgebra
