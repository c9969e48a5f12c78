import ExactAlgebra.Proofs.Expression.Reading

/-!
Which lists of tokens are expressions. The machine only succeeds on lists in which operators stand
between operands and parentheses match, and every such list is a sentence of the grammar. As the
machine also computes the values of sentences, it accepts exactly the sentences whose trees have
a value.
-/

namespace ExactAlgebra

/-- Operands, operators and parentheses alternate as they have to, from a place where an operand is
expected or not and a number of parentheses is open. -/
inductive WellFormed : Bool → Nat → List Token → Prop
  | done : WellFormed false 0 []
  | operand {expected : Bool} {depth : Nat} {token : Token} {tree : Tree} {rest : List Token}
      (htoken : token.leaf? = some tree) (h : WellFormed false depth rest) :
      WellFormed expected depth (token :: rest)
  | opening {expected : Bool} {depth : Nat} {rest : List Token}
      (h : WellFormed true (depth + 1) rest) : WellFormed expected depth (.opening :: rest)
  | closing {depth : Nat} {rest : List Token} (h : WellFormed false depth rest) :
      WellFormed false (depth + 1) (.closing :: rest)
  | sign {depth : Nat} {rest : List Token} (h : WellFormed true depth rest) :
      WellFormed true depth (.minus :: rest)
  | binary {depth : Nat} {token : Token} {operator : Operator} {rest : List Token}
      (htoken : token.infix? = some operator) (h : WellFormed true depth rest) :
      WellFormed false depth (token :: rest)

namespace Machine

variable {symbol : Char}

theorem wellFormed_of_finish {machine : Machine} {position : Nat} {value : Operand}
    (h : machine.finish position = .ok value) :
    WellFormed machine.expectsOperand (depth machine.pending) [] := by
  rw [finish] at h
  split at h
  · cases h
  · rename_i hexpects
    obtain ⟨values, hdrain, _⟩ := eq_ok_of_bind h
    have hnot : machine.expectsOperand = false := by
      simpa using hexpects
    rw [← length_openings, openings_of_drain hdrain, hnot]
    exact .done

/-- Some tokens are only taken where no operand is expected. -/
theorem expectsOperand_of_step {machine next : Machine} {placed : PlacedToken}
    (h : machine.step symbol placed = .ok next)
    (htoken : placed.token = .closing ∨ placed.token = .star ∨ placed.token = .percent ∨
      placed.token = .caret) : machine.expectsOperand = false := by
  obtain ⟨token, position⟩ := placed
  rcases htoken with rfl | rfl | rfl | rfl
  · rw [step_eq_take (Or.inr rfl)] at h
    exact (closeGroup_of_close h).1
  · rw [step_eq_take (Or.inr rfl)] at h
    exact (shape_of_infixOperator h).1
  · rw [step_eq_take (Or.inr rfl)] at h
    exact (shape_of_infixOperator h).1
  · rw [step_eq_take (Or.inr rfl)] at h
    exact (shape_of_infixOperator h).1

theorem wellFormed_of_step {machine next : Machine} {placed : PlacedToken} {rest : List Token}
    (hstep : machine.step symbol placed = .ok next)
    (hdropped : ¬ (machine.expectsOperand = true ∧ placed.token = .plus))
    (h : WellFormed next.expectsOperand (depth next.pending) rest) :
    WellFormed machine.expectsOperand (depth machine.pending) (placed.token :: rest) := by
  obtain ⟨hexpects, hdepth⟩ := shape_of_step hstep
  rw [hexpects] at h
  have hallowed := expectsOperand_of_step hstep
  obtain ⟨token, position⟩ := placed
  cases token with
  | number value | constant value | symbol =>
      have hsame : depth next.pending = depth machine.pending := hdepth
      rw [hsame] at h
      exact .operand rfl h
  | opening =>
      have hmore : depth next.pending = depth machine.pending + 1 := hdepth
      rw [hmore] at h
      exact .opening h
  | closing =>
      have hfewer : depth next.pending + 1 = depth machine.pending := hdepth
      rw [← hfewer, hallowed (Or.inl rfl)]
      exact .closing h
  | plus =>
      have hsame : depth next.pending = depth machine.pending := hdepth
      have hnot : machine.expectsOperand = false := by
        simpa using hdropped
      rw [hsame] at h
      rw [hnot]
      exact .binary rfl h
  | minus =>
      have hsame : depth next.pending = depth machine.pending := hdepth
      rw [hsame] at h
      cases machine.expectsOperand with
      | true => exact .sign h
      | false => exact .binary rfl h
  | star | percent | caret =>
      have hsame : depth next.pending = depth machine.pending := hdepth
      rw [hsame] at h
      rw [hallowed (by simp)]
      exact .binary rfl h

theorem step_prefix_plus {machine : Machine} {placed : PlacedToken}
    (hexpects : machine.expectsOperand = true) (htoken : placed.token = .plus) :
    machine.step symbol placed = .ok machine := by
  obtain ⟨token, position⟩ := placed
  cases htoken
  rw [step_eq_take (Or.inl hexpects), take, if_pos hexpects]

/-- Dropping prefix plus signs changes nothing for the machine. -/
theorem run_withoutPrefixPlus (machine : Machine) (tokens : List PlacedToken) :
    machine.run symbol (withoutPrefixPlus machine.expectsOperand tokens) =
      machine.run symbol tokens := by
  induction tokens generalizing machine with
  | nil => rfl
  | cons placed rest ih =>
      rw [withoutPrefixPlus]
      split
      · rename_i hdropped
        rw [run, step_prefix_plus hdropped.1 hdropped.2, ← hdropped.1, ih]
        rfl
      · rw [run, run]
        apply bind_congr_ok
        intro next hstep
        rw [← (shape_of_step hstep).1, ih]

theorem wellFormed_of_run {machine : Machine} {tokens : List PlacedToken} {position : Nat}
    {value : Operand}
    (h : (do
      let next ← machine.run symbol tokens
      next.finish position) = .ok value) :
    WellFormed machine.expectsOperand (depth machine.pending)
      ((withoutPrefixPlus machine.expectsOperand tokens).map PlacedToken.token) := by
  induction tokens generalizing machine with
  | nil => exact wellFormed_of_finish h
  | cons placed rest ih =>
      rw [withoutPrefixPlus]
      rw [run, bind_assoc] at h
      obtain ⟨next, hstep, hrest⟩ := eq_ok_of_bind h
      split
      · rename_i hdropped
        rw [step_prefix_plus hdropped.1 hdropped.2] at hstep
        cases hstep
        have hrec := ih hrest
        rwa [hdropped.1] at hrec ⊢
      · rename_i hdropped
        rw [List.map_cons]
        apply wellFormed_of_step hstep hdropped
        have hrec := ih hrest
        rwa [(shape_of_step hstep).1] at hrec ⊢

end Machine

/-- The level at which a token goes on with the phrase before it. -/
def Token.continues? : Token → Option Precedence
  | .number _ | .constant _ | .symbol | .opening => some .product
  | token => token.infix?.map Operator.precedence

theorem continues_of_operator {token : Token} {operator : Operator}
    (h : token.infix? = some operator) : token.continues? = some operator.precedence := by
  cases token <;> cases h <;> rfl

theorem continues_of_beginsOperand {token : Token} (h : token.beginsOperand = true) :
    token.continues? = some .product := by
  cases token <;> first | rfl | cases h

theorem beginsOperand_of_leaf {token : Token} {tree : Tree} (h : token.leaf? = some tree) :
    token.beginsOperand = true := by
  cases token <;> first | rfl | cases h

theorem beginsOperand_eq_false_of_operator {token : Token} {operator : Operator}
    (h : token.infix? = some operator) : token.beginsOperand = false := by
  cases token <;> cases h <;> rfl

/-- The tokens do not go on with a phrase before them at a level or above. -/
def Stops (level : Precedence) (tokens : List Token) : Prop :=
  ∀ token rest continued, tokens = token :: rest → token.continues? = some continued →
    continued.rank < level.rank

/-- The tokens begin with a phrase, and what follows does not go on with it. -/
def Splits (category : Category) (level : Precedence) (depth : Nat) (tokens : List Token) : Prop :=
  ∃ phrase rest tree, tokens = phrase ++ rest ∧ Phrase category phrase tree ∧
    WellFormed false depth rest ∧ Stops level rest

theorem stops_nil (level : Precedence) : Stops level [] := by
  intro token rest continued hnil
  cases hnil

theorem stops_cons {level : Precedence} {token : Token} {rest : List Token}
    (h : ∀ continued, token.continues? = some continued → continued.rank < level.rank) :
    Stops level (token :: rest) := by
  intro first others continued heq hcontinues
  cases heq
  exact h continued hcontinues

theorem Phrase.length_pos {category : Category} {tokens : List Token} {tree : Tree}
    (h : Phrase category tokens tree) : 0 < tokens.length := by
  cases tokens with
  | nil => cases h.expectsAfter_eq_false true
  | cons token rest => exact Nat.succ_pos _

/-- Where an operand is expected there are signs, and then a token that begins an operand. -/
theorem WellFormed.exists_signs {depth : Nat} {tokens : List Token}
    (h : WellFormed true depth tokens) :
    ∃ signs token rest, tokens = List.replicate signs .minus ++ token :: rest ∧
      token.beginsOperand = true ∧ WellFormed true depth (token :: rest) := by
  induction tokens with
  | nil => cases h
  | cons token rest ih =>
      cases h with
      | operand htoken hrest =>
          exact ⟨0, token, rest, rfl, beginsOperand_of_leaf htoken, .operand htoken hrest⟩
      | opening hrest => exact ⟨0, .opening, rest, rfl, rfl, .opening hrest⟩
      | sign hrest =>
          obtain ⟨signs, first, others, rfl, hbegins, hfirst⟩ := ih hrest
          exact ⟨signs + 1, first, others, rfl, hbegins, hfirst⟩

section Splitting

variable {limit : Nat}

/-- Shorter lists begin with a sum, which only a closing parenthesis or the end can follow. -/
def SumsBelow (limit : Nat) : Prop :=
  ∀ (tokens : List Token) (depth : Nat), tokens.length < limit → WellFormed true depth tokens →
    Splits .sum .sum depth tokens

/-- Shorter lists that begin with an operand begin with a power. -/
def PowersBelow (limit : Nat) : Prop :=
  ∀ (token : Token) (rest : List Token) (depth : Nat) (expected : Bool),
    (token :: rest).length < limit → token.beginsOperand = true →
    WellFormed expected depth (token :: rest) → Splits .power .power depth (token :: rest)

/-- Only the end and a closing parenthesis do not go on with a sum. -/
theorem eq_nil_or_closing_of_stops {tokens : List Token} {depth : Nat}
    (h : WellFormed false depth tokens) (hstops : Stops .sum tokens) :
    (tokens = [] ∧ depth = 0) ∨
      ∃ rest outer, tokens = .closing :: rest ∧ depth = outer + 1 ∧
        WellFormed false outer rest := by
  cases h with
  | done => exact Or.inl ⟨rfl, rfl⟩
  | operand htoken _ =>
      have hcontinues := continues_of_beginsOperand (beginsOperand_of_leaf htoken)
      exact absurd (hstops _ _ _ rfl hcontinues) (Nat.not_lt_zero _)
  | opening => exact absurd (hstops _ _ _ rfl rfl) (Nat.not_lt_zero _)
  | closing hrest => exact Or.inr ⟨_, _, rfl, rfl, hrest⟩
  | binary htoken _ =>
      exact absurd (hstops _ _ _ rfl (continues_of_operator htoken)) (Nat.not_lt_zero _)

theorem exists_atom (hsums : SumsBelow limit) {token : Token} {rest : List Token} {depth : Nat}
    {expected : Bool} (hlength : rest.length < limit) (hbegins : token.beginsOperand = true)
    (h : WellFormed expected depth (token :: rest)) :
    ∃ phrase others tree, token :: rest = phrase ++ others ∧ Phrase .atom phrase tree ∧
      WellFormed false depth others := by
  cases h with
  | operand htoken hrest => exact ⟨[token], rest, _, rfl, .leaf htoken, hrest⟩
  | opening hrest =>
      obtain ⟨phrase, others, tree, rfl, hphrase, hothers, hstops⟩ := hsums rest _ hlength hrest
      rcases eq_nil_or_closing_of_stops hothers hstops with ⟨_, hdepth⟩ |
        ⟨after, outer, rfl, hdepth, hafter⟩
      · cases hdepth
      · cases hdepth
        exact ⟨.opening :: (phrase ++ [.closing]), after, tree, by simp, .group hphrase, hafter⟩
  | closing | sign => cases hbegins
  | binary htoken _ =>
      rw [beginsOperand_eq_false_of_operator htoken] at hbegins
      cases hbegins

/-- A chain goes on as long as carets with unsigned exponents follow. A signed exponent is the whole
power that comes after the signs and ends it. -/
theorem splits_of_chain (hsums : SumsBelow limit) (hpowers : PowersBelow limit)
    {left rest : List Token} {a : Tree} {depth : Nat} (hlength : rest.length ≤ limit)
    (hleft : Phrase .chain left a) (h : WellFormed false depth rest) :
    Splits .power .power depth (left ++ rest) := by
  induction hn : rest.length using Nat.strongRecOn generalizing left rest a with
  | ind n ih =>
      by_cases hcaret : ∃ after, rest = .caret :: after
      · obtain ⟨after, rfl⟩ := hcaret
        have hafter : WellFormed true depth after := by
          cases h with
          | operand htoken => cases htoken
          | binary _ hafter => exact hafter
        obtain ⟨signs, token, others, rfl, hbegins, htoken⟩ := hafter.exists_signs
        simp only [List.length_cons, List.length_append, List.length_replicate] at hlength hn
        cases signs with
        | zero =>
            obtain ⟨phrase, final, b, heq, hphrase, hfinal⟩ :=
              exists_atom hsums (by omega) hbegins htoken
            have hpos := hphrase.length_pos
            have hsplit := congrArg List.length heq
            simp only [List.length_cons, List.length_append] at hsplit
            have hnext := ih final.length (by omega) (by omega)
              (.chainPower hleft hphrase) hfinal rfl
            simpa [heq] using hnext
        | succ signs =>
            obtain ⟨phrase, final, b, heq, hphrase, hfinal, hstops⟩ :=
              hpowers token others depth true (by simp only [List.length_cons]; omega) hbegins
                htoken
            exact ⟨_, final, _, by simp [heq], .powerSigned signs hleft hphrase, hfinal, hstops⟩
      · refine ⟨left, rest, a, rfl, .powerChain hleft, h, ?_⟩
        intro token others continued heq hcontinues
        subst heq
        cases token <;> cases hcontinues <;>
          first | exact (by decide) | exact absurd ⟨others, rfl⟩ hcaret

theorem powersBelow_succ (hsums : SumsBelow limit) (hpowers : PowersBelow limit) :
    PowersBelow (limit + 1) := by
  intro token rest depth expected hlength hbegins h
  simp only [List.length_cons] at hlength
  obtain ⟨phrase, others, tree, heq, hphrase, hothers⟩ :=
    exists_atom hsums (Nat.lt_of_succ_lt_succ hlength) hbegins h
  rw [heq]
  apply splits_of_chain hsums hpowers _ (.chainAtom hphrase) hothers
  have hsplit := congrArg List.length heq
  simp only [List.length_cons, List.length_append] at hsplit
  omega

theorem splits_signed (hpowers : PowersBelow limit) {tokens : List Token} {depth : Nat}
    (hlength : tokens.length < limit) (h : WellFormed true depth tokens) :
    Splits .signed .power depth tokens := by
  obtain ⟨signs, token, rest, rfl, hbegins, hfirst⟩ := h.exists_signs
  rw [List.length_append] at hlength
  obtain ⟨phrase, others, tree, heq, hphrase, hothers, hstops⟩ :=
    hpowers token rest depth true (by omega) hbegins hfirst
  exact ⟨_, others, _, by simp [heq], .signs signs hphrase, hothers, hstops⟩

/-- A product goes on with stars and percent signs before signed powers, and with powers. -/
theorem splits_of_product (hpowers : PowersBelow limit) {left rest : List Token} {a : Tree}
    {depth : Nat} (hlength : rest.length < limit) (hleft : Phrase .product left a)
    (h : WellFormed false depth rest) (hstops : Stops .power rest) :
    Splits .product .product depth (left ++ rest) := by
  induction hn : rest.length using Nat.strongRecOn generalizing left rest a with
  | ind n ih =>
      have hjuxtaposed : ∀ token after, rest = token :: after → token.beginsOperand = true →
          Splits .product .product depth (left ++ rest) := by
        rintro token after rfl hbegins
        obtain ⟨phrase, final, b, heq, hphrase, hfinal, hfinalStops⟩ :=
          hpowers token after depth false hlength hbegins h
        have hpos := hphrase.length_pos
        rw [heq, List.length_append] at hlength hn
        have hnext := ih final.length (by omega) (by omega)
          (.productJuxtaposed hleft hphrase) hfinal hfinalStops rfl
        simpa [heq] using hnext
      cases h with
      | done => exact ⟨left, [], a, rfl, hleft, .done, stops_nil _⟩
      | operand htoken hafter => exact hjuxtaposed _ _ rfl (beginsOperand_of_leaf htoken)
      | opening hafter => exact hjuxtaposed _ _ rfl rfl
      | closing hafter =>
          refine ⟨left, _, a, rfl, hleft, .closing hafter, stops_cons ?_⟩
          intro continued hcontinues
          cases hcontinues
      | @binary _ token operator after htoken hafter =>
          have hcontinues := continues_of_operator htoken
          cases hlevel : operator.precedence with
          | sum =>
              refine ⟨left, _, a, rfl, hleft, .binary htoken hafter, stops_cons ?_⟩
              intro continued hcontinued
              rw [hcontinues, hlevel] at hcontinued
              cases hcontinued
              decide
          | product =>
              rw [List.length_cons] at hlength hn
              obtain ⟨phrase, final, b, rfl, hphrase, hfinal, hfinalStops⟩ :=
                splits_signed hpowers (Nat.lt_of_succ_lt hlength) hafter
              rw [List.length_append] at hlength hn
              have hnext := ih final.length (by omega) (by omega)
                (hleft.product_of_infix htoken hlevel hphrase) hfinal hfinalStops rfl
              simpa using hnext
          | sign => cases token <;> cases htoken <;> cases hlevel
          | power =>
              rw [hlevel] at hcontinues
              exact absurd (hstops _ _ _ rfl hcontinues) (Nat.lt_irrefl _)

theorem splits_product (hpowers : PowersBelow limit) {tokens : List Token} {depth : Nat}
    (hlength : tokens.length < limit) (h : WellFormed true depth tokens) :
    Splits .product .product depth tokens := by
  obtain ⟨phrase, rest, tree, rfl, hphrase, hrest, hstops⟩ := splits_signed hpowers hlength h
  rw [List.length_append] at hlength
  exact splits_of_product hpowers (by omega) (.productSigned hphrase) hrest hstops

/-- A sum goes on with plus and minus signs before products. -/
theorem splits_of_sum (hpowers : PowersBelow limit) {left rest : List Token} {a : Tree}
    {depth : Nat} (hlength : rest.length < limit) (hleft : Phrase .sum left a)
    (h : WellFormed false depth rest) (hstops : Stops .product rest) :
    Splits .sum .sum depth (left ++ rest) := by
  induction hn : rest.length using Nat.strongRecOn generalizing left rest a with
  | ind n ih =>
      have hnone : ∀ token after, rest = token :: after → token.beginsOperand = true → False := by
        rintro token after rfl hbegins
        exact Nat.lt_irrefl _ (hstops _ _ _ rfl (continues_of_beginsOperand hbegins))
      cases h with
      | done => exact ⟨left, [], a, rfl, hleft, .done, stops_nil _⟩
      | operand htoken hafter => exact (hnone _ _ rfl (beginsOperand_of_leaf htoken)).elim
      | opening hafter => exact (hnone _ _ rfl rfl).elim
      | closing hafter =>
          refine ⟨left, _, a, rfl, hleft, .closing hafter, stops_cons ?_⟩
          intro continued hcontinues
          cases hcontinues
      | @binary _ token operator after htoken hafter =>
          have hbelow := hstops _ _ _ rfl (continues_of_operator htoken)
          have hlevel : operator.precedence = .sum := by
            cases token <;> cases htoken <;> first | rfl | exact absurd hbelow (by decide)
          rw [List.length_cons] at hlength hn
          obtain ⟨phrase, final, b, rfl, hphrase, hfinal, hfinalStops⟩ :=
            splits_product hpowers (Nat.lt_of_succ_lt hlength) hafter
          rw [List.length_append] at hlength hn
          have hnext := ih final.length (by omega) (by omega)
            (hleft.sum_of_infix htoken hlevel hphrase) hfinal hfinalStops rfl
          simpa using hnext

theorem splits_sum (hpowers : PowersBelow limit) {tokens : List Token} {depth : Nat}
    (hlength : tokens.length < limit) (h : WellFormed true depth tokens) :
    Splits .sum .sum depth tokens := by
  obtain ⟨phrase, rest, tree, rfl, hphrase, hrest, hstops⟩ := splits_product hpowers hlength h
  rw [List.length_append] at hlength
  exact splits_of_sum hpowers (by omega) (.sumProduct hphrase) hrest hstops

theorem sumsBelow_and_powersBelow (limit : Nat) : SumsBelow limit ∧ PowersBelow limit := by
  induction limit with
  | zero =>
      constructor
      · intro tokens depth hlength
        exact (Nat.not_lt_zero _ hlength).elim
      · intro token rest depth expected hlength
        exact (Nat.not_lt_zero _ hlength).elim
  | succ limit ih =>
      have hpowers := powersBelow_succ ih.1 ih.2
      constructor
      · intro tokens depth hlength h
        exact splits_sum hpowers hlength h
      · exact hpowers

end Splitting

/-- Lists in which operands, operators and parentheses alternate as they have to are sentences. -/
theorem WellFormed.exists_phrase {tokens : List Token} (h : WellFormed true 0 tokens) :
    ∃ tree, Phrase .sum tokens tree := by
  obtain ⟨phrase, rest, tree, rfl, hphrase, hrest, hstops⟩ :=
    (sumsBelow_and_powersBelow (tokens.length + 1)).1 tokens 0 (Nat.lt_succ_self _) h
  rcases eq_nil_or_closing_of_stops hrest hstops with ⟨rfl, _⟩ | ⟨_, outer, _, hdepth, _⟩
  · rw [List.append_nil]
    exact ⟨tree, hphrase⟩
  · cases hdepth

namespace Machine

theorem evaluate_withoutPrefixPlus (symbol : Char) (tokens : List PlacedToken) (position : Nat) :
    evaluate symbol (withoutPrefixPlus true tokens) position =
      evaluate symbol tokens position := by
  rw [evaluate, evaluate]
  have hrun : run symbol initial (withoutPrefixPlus true tokens) = run symbol initial tokens :=
    run_withoutPrefixPlus initial tokens
  rw [hrun]

/-- An expression is accepted exactly if its tokens without prefix plus signs are a sentence whose
tree has a value, and a sentence has the value of its tree or fails with the tree's error. -/
theorem evaluate_eq_value_of_tree (symbol : Char) (tokens : List PlacedToken) (position : Nat) :
    (∀ value, evaluate symbol tokens position = .ok value ↔
      ∃ tree, Phrase .sum ((withoutPrefixPlus true tokens).map PlacedToken.token) tree ∧
        tree.value symbol = .ok value) ∧
    ∀ tree, Phrase .sum ((withoutPrefixPlus true tokens).map PlacedToken.token) tree →
      evaluate symbol tokens position = tree.value symbol := by
  have hsentence : ∀ tree,
      Phrase .sum ((withoutPrefixPlus true tokens).map PlacedToken.token) tree →
      evaluate symbol tokens position = tree.value symbol := by
    intro tree htree
    rw [← evaluate_withoutPrefixPlus]
    exact evaluate_of_phrase htree symbol position
  refine ⟨?_, hsentence⟩
  intro value
  constructor
  · intro hvalue
    have hrun : (do
        let next ← initial.run symbol tokens
        next.finish position) = .ok value := hvalue
    have hformed := wellFormed_of_run hrun
    obtain ⟨tree, htree⟩ := hformed.exists_phrase
    rw [hsentence tree htree] at hvalue
    exact ⟨tree, htree, hvalue⟩
  · rintro ⟨tree, htree, hvalue⟩
    rw [hsentence tree htree, hvalue]

end Machine

end ExactAlgebra
