import ExactAlgebra.Expression.Operand
import ExactAlgebra.Expression.Token

/-!
The grammar of expressions and the values of their trees. Sums are made of products, products of
signed powers, and powers of atoms. Juxtaposition multiplies like a star, but only a power can
follow. Powers associate to the left, except that a signed exponent is the whole power that
follows its signs. Prefix plus signs are no part of the grammar: they are dropped before.
-/

namespace ExactAlgebra

/-- The trees of expressions. -/
inductive Tree where
  | number (value : Rat)
  | variable
  | negate (operand : Tree)
  | add (left right : Tree)
  | subtract (left right : Tree)
  | multiply (left right : Tree)
  | remainder (left right : Tree)
  | power (base exponent : Tree)

/-- The value of a tree, with left operands before right ones. The variable has the coefficient one
and the exponent one. -/
def Tree.value (symbol : Char) : Tree → Except Error Operand
  | .number value => .ok (.number value)
  | .variable => .ok (.polynomial (.termIn (.plain symbol) 1 oneExponent))
  | .negate operand => do
      let a ← operand.value symbol
      return a.neg
  | .add left right => do
      let a ← left.value symbol
      let b ← right.value symbol
      return a.add b
  | .subtract left right => do
      let a ← left.value symbol
      let b ← right.value symbol
      return a.sub b
  | .multiply left right => do
      let a ← left.value symbol
      let b ← right.value symbol
      a.mul b
  | .remainder left right => do
      let a ← left.value symbol
      let b ← right.value symbol
      a.mod b
  | .power base exponent => do
      let a ← base.value symbol
      let b ← exponent.value symbol
      a.pow b

/-- A tree behind a number of minus signs. -/
def Tree.negations : Nat → Tree → Tree
  | 0, tree => tree
  | n + 1, tree => .negate (negations n tree)

/-- The tree of a token that is an operand by itself. -/
def Token.leaf? : Token → Option Tree
  | .number value => some (.number value)
  | .constant value => some (.number value)
  | .symbol => some .variable
  | _ => none

/-- The kinds of phrases. A chain is a power without a signed exponent. -/
inductive Category where
  | sum
  | product
  | signed
  | power
  | chain
  | atom

/-- A list of tokens is a phrase of a category with a given tree. -/
inductive Phrase : Category → List Token → Tree → Prop
  | leaf {token : Token} {tree : Tree} (htoken : token.leaf? = some tree) :
      Phrase .atom [token] tree
  | group {tokens : List Token} {tree : Tree} (h : Phrase .sum tokens tree) :
      Phrase .atom (.opening :: (tokens ++ [.closing])) tree
  | chainAtom {tokens : List Token} {tree : Tree} (h : Phrase .atom tokens tree) :
      Phrase .chain tokens tree
  | chainPower {left right : List Token} {a b : Tree} (hleft : Phrase .chain left a)
      (hright : Phrase .atom right b) :
      Phrase .chain (left ++ .caret :: right) (.power a b)
  | powerChain {tokens : List Token} {tree : Tree} (h : Phrase .chain tokens tree) :
      Phrase .power tokens tree
  | powerSigned {left right : List Token} {a b : Tree} (signs : Nat)
      (hleft : Phrase .chain left a) (hright : Phrase .power right b) :
      Phrase .power (left ++ .caret :: (List.replicate (signs + 1) .minus ++ right))
        (.power a (.negations (signs + 1) b))
  | signs {tokens : List Token} {tree : Tree} (signs : Nat) (h : Phrase .power tokens tree) :
      Phrase .signed (List.replicate signs .minus ++ tokens) (.negations signs tree)
  | productSigned {tokens : List Token} {tree : Tree} (h : Phrase .signed tokens tree) :
      Phrase .product tokens tree
  | productStar {left right : List Token} {a b : Tree} (hleft : Phrase .product left a)
      (hright : Phrase .signed right b) :
      Phrase .product (left ++ .star :: right) (.multiply a b)
  | productPercent {left right : List Token} {a b : Tree} (hleft : Phrase .product left a)
      (hright : Phrase .signed right b) :
      Phrase .product (left ++ .percent :: right) (.remainder a b)
  | productJuxtaposed {left right : List Token} {a b : Tree} (hleft : Phrase .product left a)
      (hright : Phrase .power right b) :
      Phrase .product (left ++ right) (.multiply a b)
  | sumProduct {tokens : List Token} {tree : Tree} (h : Phrase .product tokens tree) :
      Phrase .sum tokens tree
  | sumPlus {left right : List Token} {a b : Tree} (hleft : Phrase .sum left a)
      (hright : Phrase .product right b) :
      Phrase .sum (left ++ .plus :: right) (.add a b)
  | sumMinus {left right : List Token} {a b : Tree} (hleft : Phrase .sum left a)
      (hright : Phrase .product right b) :
      Phrase .sum (left ++ .minus :: right) (.subtract a b)

/-- An operand has to follow the token. -/
def Token.leavesOperandExpected : Token → Bool
  | .number _ | .constant _ | .symbol | .closing => false
  | _ => true

/-- An operand has to follow a list of tokens, if `expected` says so where the list begins. -/
def expectsAfter (expected : Bool) (tokens : List Token) : Bool :=
  tokens.foldl (fun _ token => token.leavesOperandExpected) expected

/-- The tokens without every plus sign that stands where an operand is expected. -/
def withoutPrefixPlus : Bool → List PlacedToken → List PlacedToken
  | _, [] => []
  | expected, placed :: rest =>
      if expected = true ∧ placed.token = .plus then withoutPrefixPlus true rest
      else placed :: withoutPrefixPlus placed.token.leavesOperandExpected rest

@[simp] theorem expectsAfter_cons (expected : Bool) (token : Token) (rest : List Token) :
    expectsAfter expected (token :: rest) = expectsAfter token.leavesOperandExpected rest := rfl

@[simp] theorem expectsAfter_append (expected : Bool) (left right : List Token) :
    expectsAfter expected (left ++ right) = expectsAfter (expectsAfter expected left) right :=
  List.foldl_append

namespace Phrase

/-- No operand is expected after a phrase. -/
theorem expectsAfter_eq_false {category : Category} {tokens : List Token} {tree : Tree}
    (h : Phrase category tokens tree) (expected : Bool) :
    expectsAfter expected tokens = false := by
  induction h generalizing expected with
  | @leaf token tree htoken => cases token <;> first | rfl | cases htoken
  | group h ih => rw [expectsAfter_cons, expectsAfter_append]; rfl
  | chainAtom h ih => exact ih expected
  | chainPower hleft hright ihLeft ihRight =>
      rw [expectsAfter_append, expectsAfter_cons]
      exact ihRight _
  | powerChain h ih => exact ih expected
  | powerSigned signs hleft hright ihLeft ihRight =>
      rw [expectsAfter_append, expectsAfter_cons, expectsAfter_append]
      exact ihRight _
  | signs signs h ih =>
      rw [expectsAfter_append]
      exact ih _
  | productSigned h ih => exact ih expected
  | productStar hleft hright ihLeft ihRight | productPercent hleft hright ihLeft ihRight =>
      rw [expectsAfter_append, expectsAfter_cons]
      exact ihRight _
  | productJuxtaposed hleft hright ihLeft ihRight =>
      rw [expectsAfter_append]
      exact ihRight _
  | sumProduct h ih => exact ih expected
  | sumPlus hleft hright ihLeft ihRight | sumMinus hleft hright ihLeft ihRight =>
      rw [expectsAfter_append, expectsAfter_cons]
      exact ihRight _

theorem count_opening_eq_count_closing {category : Category} {tokens : List Token} {tree : Tree}
    (h : Phrase category tokens tree) :
    tokens.count .opening = tokens.count .closing := by
  induction h with
  | @leaf token tree htoken => cases token <;> first | rfl | cases htoken
  | group h ih => simp [ih]
  | chainAtom h ih => exact ih
  | chainPower hleft hright ihLeft ihRight => simp [ihLeft, ihRight]
  | powerChain h ih => exact ih
  | powerSigned signs hleft hright ihLeft ihRight =>
      simp [List.count_replicate, ihLeft, ihRight]
  | signs signs h ih => simp [List.count_replicate, ih]
  | productSigned h ih => exact ih
  | productStar hleft hright ihLeft ihRight | productPercent hleft hright ihLeft ihRight
  | productJuxtaposed hleft hright ihLeft ihRight => simp [ihLeft, ihRight]
  | sumProduct h ih => exact ih
  | sumPlus hleft hright ihLeft ihRight | sumMinus hleft hright ihLeft ihRight =>
      simp [ihLeft, ihRight]

/-- Powers begin with a token that can stand behind an operand and multiply it. -/
theorem exists_cons_beginsOperand {category : Category} {tokens : List Token} {tree : Tree}
    (h : Phrase category tokens tree)
    (hcategory : category = .power ∨ category = .chain ∨ category = .atom) :
    ∃ token rest, tokens = token :: rest ∧ token.beginsOperand = true := by
  induction h with
  | @leaf token tree htoken =>
      refine ⟨token, [], rfl, ?_⟩
      cases token <;> first | rfl | cases htoken
  | group h ih => exact ⟨.opening, _, rfl, rfl⟩
  | chainAtom h ih => exact ih (by simp)
  | chainPower hleft hright ihLeft ihRight =>
      obtain ⟨token, rest, rfl, hbegins⟩ := ihLeft (by simp)
      exact ⟨token, _, rfl, hbegins⟩
  | powerChain h ih => exact ih (by simp)
  | powerSigned signs hleft hright ihLeft ihRight =>
      obtain ⟨token, rest, rfl, hbegins⟩ := ihLeft (by simp)
      exact ⟨token, _, rfl, hbegins⟩
  | signs | productSigned | productStar | productPercent | productJuxtaposed | sumProduct
  | sumPlus | sumMinus => simp at hcategory

end Phrase

end ExactAlgebra
