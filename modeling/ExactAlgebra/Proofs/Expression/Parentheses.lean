import ExactAlgebra.Expression.Token
import Mathlib.Data.List.Induction

/-!
Parentheses that belong together. Two of them do if the tokens between them are balanced. So a
closing parenthesis has a partner if the tokens before it leave one open, and an opening one has a
partner if the tokens behind it close one. Reading from left to right, it is enough to keep the
positions of the parentheses that are still open.
-/

namespace ExactAlgebra

/-- Every parenthesis has a partner among the tokens. -/
inductive IsBalanced : List PlacedToken → Prop
  | nil : IsBalanced []
  | plain {placed : PlacedToken} {rest : List PlacedToken} (hopening : placed.token ≠ .opening)
      (hclosing : placed.token ≠ .closing) (hrest : IsBalanced rest) : IsBalanced (placed :: rest)
  | group {inner rest : List PlacedToken} (opened closed : Nat) (hinner : IsBalanced inner)
      (hrest : IsBalanced rest) :
      IsBalanced (⟨.opening, opened⟩ :: (inner ++ ⟨.closing, closed⟩ :: rest))

/-- A closing parenthesis behind the tokens has its partner among them. -/
def LeavesOpen (before : List PlacedToken) : Prop :=
  ∃ outer opened inner, before = outer ++ ⟨.opening, opened⟩ :: inner ∧ IsBalanced inner

/-- An opening parenthesis in front of the tokens has its partner among them. -/
def ClosesOne (after : List PlacedToken) : Prop :=
  ∃ inner closed outer, after = inner ++ ⟨.closing, closed⟩ :: outer ∧ IsBalanced inner

/-- No closing parenthesis lacks a partner. -/
def ClosingsMatched (tokens : List PlacedToken) : Prop :=
  ∀ before closed after, tokens = before ++ ⟨.closing, closed⟩ :: after → LeavesOpen before

/-- No opening parenthesis lacks a partner. -/
def OpeningsMatched (tokens : List PlacedToken) : Prop :=
  ∀ before opened after, tokens = before ++ ⟨.opening, opened⟩ :: after → ClosesOne after

/-- At the position is the first closing parenthesis that lacks a partner. -/
def IsFirstUnmatchedClosing (tokens : List PlacedToken) (position : Nat) : Prop :=
  ∃ before after, tokens = before ++ ⟨.closing, position⟩ :: after ∧ ¬ LeavesOpen before ∧
    ClosingsMatched before

/-- At the position is the last opening parenthesis that lacks a partner. -/
def IsLastUnmatchedOpening (tokens : List PlacedToken) (position : Nat) : Prop :=
  ∃ before after, tokens = before ++ ⟨.opening, position⟩ :: after ∧ ¬ ClosesOne after ∧
    OpeningsMatched after

/-- The parentheses at the positions are open behind the tokens, the innermost first. -/
inductive Opens : List PlacedToken → List Nat → Prop
  | balanced {tokens : List PlacedToken} (h : IsBalanced tokens) : Opens tokens []
  | opening {outer inner : List PlacedToken} {positions : List Nat} (position : Nat)
      (houter : Opens outer positions) (hinner : IsBalanced inner) :
      Opens (outer ++ ⟨.opening, position⟩ :: inner) (position :: positions)

/-- The open parentheses after one more token. -/
def openAfter (placed : PlacedToken) (positions : List Nat) : List Nat :=
  match placed.token with
  | .opening => placed.position :: positions
  | .closing => positions.tail
  | _ => positions

theorem openAfter_of_plain {placed : PlacedToken} (hopening : placed.token ≠ .opening)
    (hclosing : placed.token ≠ .closing) (positions : List Nat) :
    openAfter placed positions = positions := by
  unfold openAfter
  split
  · contradiction
  · contradiction
  · rfl

/-- Every opening parenthesis adds one to the open ones, and every closing one takes one away. -/
theorem length_openAfter {placed : PlacedToken} {positions : List Nat}
    (hopen : placed.token = .closing → positions ≠ []) :
    (openAfter placed positions).length + [placed.token].count .closing =
      positions.length + [placed.token].count .opening := by
  obtain ⟨token, position⟩ := placed
  cases token with
  | closing =>
      obtain ⟨opened, outer, rfl⟩ := List.exists_cons_of_ne_nil (hopen rfl)
      rfl
  | _ => rfl

theorem LeavesOpen.append_left {before : List PlacedToken} (h : LeavesOpen before)
    (tokens : List PlacedToken) : LeavesOpen (tokens ++ before) := by
  obtain ⟨outer, opened, inner, rfl, hinner⟩ := h
  exact ⟨tokens ++ outer, opened, inner, by simp, hinner⟩

theorem ClosesOne.append_right {after : List PlacedToken} (h : ClosesOne after)
    (tokens : List PlacedToken) : ClosesOne (after ++ tokens) := by
  obtain ⟨inner, closed, outer, rfl, hinner⟩ := h
  exact ⟨inner, closed, outer ++ tokens, by simp, hinner⟩

/-- Among the tokens of two lists in a row, one is in the first list or in the second. -/
theorem append_cons_cases {left right before after : List PlacedToken} {placed : PlacedToken}
    (h : left ++ right = before ++ placed :: after) :
    (∃ between, left = before ++ placed :: between ∧ after = between ++ right) ∨
      ∃ between, before = left ++ between ∧ right = between ++ placed :: after := by
  rcases List.append_eq_append_iff.1 h with ⟨between, rfl, rfl⟩ | ⟨between, rfl, hright⟩
  · exact Or.inr ⟨between, rfl, rfl⟩
  · cases between with
    | nil => exact Or.inr ⟨[], by simp, by simpa using hright.symm⟩
    | cons first between =>
        obtain ⟨rfl, rfl⟩ := List.cons_eq_cons.1 hright
        exact Or.inl ⟨between, rfl, rfl⟩

namespace IsBalanced

variable {tokens left right : List PlacedToken}

theorem append (hleft : IsBalanced left) (hright : IsBalanced right) :
    IsBalanced (left ++ right) := by
  induction hleft with
  | nil => exact hright
  | plain hopening hclosing _ ih => exact .plain hopening hclosing ih
  | group opened closed hinner _ _ ih =>
      rw [List.cons_append, List.append_assoc]
      exact .group opened closed hinner ih

theorem singleton {placed : PlacedToken} (hopening : placed.token ≠ .opening)
    (hclosing : placed.token ≠ .closing) : IsBalanced [placed] :=
  .plain hopening hclosing .nil

/-- Inside balanced tokens, the partner of a closing parenthesis is before it. -/
theorem closingsMatched (h : IsBalanced tokens) : ClosingsMatched tokens := by
  induction h with
  | nil =>
      intro before closed after h
      simp at h
  | @plain placed rest _ hclosing _ ih =>
      intro before closed after h
      cases before with
      | nil => exact absurd (congrArg PlacedToken.token (List.cons_eq_cons.1 h).1) hclosing
      | cons first before =>
          obtain ⟨rfl, hrest⟩ := List.cons_eq_cons.1 h
          exact (ih before closed after hrest).append_left [placed]
  | @group inner rest opened closed hinner _ ihInner ihRest =>
      intro before position after h
      cases before with
      | nil => cases h
      | cons first before =>
          obtain ⟨rfl, hinside⟩ := List.cons_eq_cons.1 h
          rcases append_cons_cases hinside with ⟨between, hsplit, rfl⟩ | ⟨between, rfl, hsplit⟩
          · exact (ihInner before position between hsplit).append_left [⟨.opening, opened⟩]
          · cases between with
            | nil => exact ⟨[], opened, inner, by simp, hinner⟩
            | cons second between =>
                obtain ⟨rfl, hrest⟩ := List.cons_eq_cons.1 hsplit
                rw [List.append_cons, ← List.cons_append]
                exact (ihRest between position after hrest).append_left _

/-- Inside balanced tokens, the partner of an opening parenthesis is behind it. -/
theorem openingsMatched (h : IsBalanced tokens) : OpeningsMatched tokens := by
  induction h with
  | nil =>
      intro before opened after h
      simp at h
  | @plain placed rest hopening _ _ ih =>
      intro before opened after h
      cases before with
      | nil => exact absurd (congrArg PlacedToken.token (List.cons_eq_cons.1 h).1) hopening
      | cons first before => exact ih before opened after (List.cons_eq_cons.1 h).2
  | @group inner rest opened closed hinner _ ihInner ihRest =>
      intro before position after h
      cases before with
      | nil =>
          obtain ⟨_, rfl⟩ := List.cons_eq_cons.1 h
          exact ⟨inner, closed, rest, rfl, hinner⟩
      | cons first before =>
          obtain ⟨rfl, hinside⟩ := List.cons_eq_cons.1 h
          rcases append_cons_cases hinside with ⟨between, hsplit, rfl⟩ | ⟨between, rfl, hsplit⟩
          · exact (ihInner before position between hsplit).append_right _
          · cases between with
            | nil => cases hsplit
            | cons second between =>
                exact ihRest between position after (List.cons_eq_cons.1 hsplit).2

/-- Balanced tokens leave nothing open: the partner of an open parenthesis would enclose shorter
balanced tokens that leave one open. -/
theorem not_leavesOpen (h : IsBalanced tokens) : ¬ LeavesOpen tokens := by
  induction hlength : tokens.length using Nat.strongRecOn generalizing tokens with
  | ind length ih =>
      intro hopen
      obtain ⟨outer, opened, inner, rfl, hinner⟩ := hopen
      obtain ⟨enclosed, closed, after, rfl, henclosed⟩ := h.openingsMatched outer opened inner rfl
      have hshorter : enclosed.length < length := by
        rw [← hlength]
        simp
        omega
      exact ih _ hshorter henclosed rfl (hinner.closingsMatched enclosed closed after rfl)

theorem not_closesOne (h : IsBalanced tokens) : ¬ ClosesOne tokens := by
  intro hcloses
  obtain ⟨inner, closed, outer, rfl, hinner⟩ := hcloses
  exact hinner.not_leavesOpen (h.closingsMatched inner closed outer rfl)

end IsBalanced

namespace Opens

variable {tokens inner : List PlacedToken} {positions : List Nat}

theorem append (h : Opens tokens positions) (hinner : IsBalanced inner) :
    Opens (tokens ++ inner) positions := by
  cases h with
  | balanced h => exact .balanced (h.append hinner)
  | opening position houter h =>
      rw [List.append_assoc]
      exact .opening position houter (h.append hinner)

/-- A closing parenthesis closes the innermost one that is open. -/
theorem close (h : Opens tokens positions) (hopen : positions ≠ []) (closed : Nat) :
    Opens (tokens ++ [⟨.closing, closed⟩]) positions.tail := by
  cases h with
  | balanced h => exact absurd rfl hopen
  | opening position houter h =>
      rw [List.append_assoc]
      exact houter.append (.group position closed h .nil)

/-- The open parentheses behind one more token. -/
theorem step (h : Opens tokens positions) {placed : PlacedToken}
    (hopen : placed.token = .closing → positions ≠ []) :
    Opens (tokens ++ [placed]) (openAfter placed positions) := by
  obtain ⟨token, position⟩ := placed
  by_cases hopening : token = .opening
  · subst hopening
    exact .opening position h .nil
  by_cases hclosing : token = .closing
  · subst hclosing
    exact h.close (hopen rfl) position
  · rw [openAfter_of_plain hopening hclosing]
    exact h.append (.singleton hopening hclosing)

theorem isBalanced (h : Opens tokens []) : IsBalanced tokens := by
  cases h with
  | balanced h => exact h

theorem closingsMatched (h : Opens tokens positions) : ClosingsMatched tokens := by
  induction h with
  | balanced h => exact h.closingsMatched
  | @opening outer inner positions position _ hinner ih =>
      intro before closed after h
      rcases append_cons_cases h with ⟨between, hsplit, rfl⟩ | ⟨between, rfl, hsplit⟩
      · exact ih before closed between hsplit
      · cases between with
        | nil => cases hsplit
        | cons first between =>
            obtain ⟨rfl, hrest⟩ := List.cons_eq_cons.1 hsplit
            rw [List.append_cons]
            exact (hinner.closingsMatched between closed after hrest).append_left _

theorem isFirstUnmatchedClosing {after : List PlacedToken} (h : Opens tokens [])
    (position : Nat) : IsFirstUnmatchedClosing (tokens ++ ⟨.closing, position⟩ :: after) position :=
  ⟨tokens, after, rfl, h.isBalanced.not_leavesOpen, h.closingsMatched⟩

theorem isLastUnmatchedOpening {position : Nat} (h : Opens tokens (position :: positions)) :
    IsLastUnmatchedOpening tokens position := by
  cases h with
  | @opening outer inner _ _ houter hinner =>
      exact ⟨outer, inner, rfl, hinner.not_closesOne, hinner.openingsMatched⟩

/-- Where every closing parenthesis has a partner, some parentheses are open at the end. -/
theorem exists_of_closingsMatched (h : ClosingsMatched tokens) :
    ∃ positions, Opens tokens positions := by
  induction tokens using List.reverseRecOn with
  | nil => exact ⟨[], .balanced .nil⟩
  | append_singleton tokens placed ih =>
      have hbefore : ClosingsMatched tokens := by
        rintro before closed after rfl
        exact h before closed (after ++ [placed]) (by simp)
      obtain ⟨positions, hopens⟩ := ih hbefore
      refine ⟨_, hopens.step fun hclosing hnone => ?_⟩
      obtain ⟨token, position⟩ := placed
      subst hclosing hnone
      exact hopens.isBalanced.not_leavesOpen (h tokens position [] rfl)

end Opens

/-- Tokens are balanced exactly if no parenthesis lacks a partner. -/
theorem isBalanced_iff {tokens : List PlacedToken} :
    IsBalanced tokens ↔ ClosingsMatched tokens ∧ OpeningsMatched tokens := by
  refine ⟨fun h => ⟨h.closingsMatched, h.openingsMatched⟩, ?_⟩
  rintro ⟨hclosings, hopenings⟩
  obtain ⟨positions, hopens⟩ := Opens.exists_of_closingsMatched hclosings
  cases hopens with
  | balanced h => exact h
  | @opening outer inner _ position _ hinner =>
      exact absurd (hopenings outer position inner rfl) hinner.not_closesOne

end ExactAlgebra
