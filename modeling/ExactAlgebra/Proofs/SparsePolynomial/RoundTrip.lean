import ExactAlgebra.Proofs.Expression.Operand
import ExactAlgebra.Proofs.Expression.Reading
import ExactAlgebra.Proofs.SparsePolynomial.Printer

/-!
Reading back what was written. The tokens of a written polynomial are a sum whose tree has the
polynomial as its value, so the polynomial is read back if its coefficients can be written as
decimals. Otherwise the first slash is an unknown character: no other value is ever read.
-/

namespace ExactAlgebra

open Polynomial

def termTree (signs : Nat) (magnitude : Rat) (exponent : Nat) : Tree :=
  match exponent with
  | 0 => .negations signs (.number magnitude)
  | 1 => .multiply (.negations signs (.number magnitude)) .variable
  | _ =>
      .multiply (.negations signs (.number magnitude)) (.power .variable (.number exponent))

def leadingTree (t : Term) : Tree :=
  termTree (SparsePolynomial.signs t.coefficient) |t.coefficient| t.exponent

def followingTree (tree : Tree) (t : Term) : Tree :=
  if t.coefficient < 0 then .subtract tree (leadingTree ⟨|t.coefficient|, t.exponent⟩)
  else .add tree (leadingTree ⟨|t.coefficient|, t.exponent⟩)

section Phrases

open SparsePolynomial (powerTokens leadingTokens followingTokens)

theorem phrase_symbol : Phrase .chain [.symbol] .variable := .chainAtom (.leaf rfl)

theorem phrase_term (signs : Nat) (magnitude : Rat) (exponent : Nat) :
    Phrase .product (List.replicate signs .minus ++ .number magnitude :: powerTokens exponent)
      (termTree signs magnitude exponent) := by
  have hnumber : Phrase .power [.number magnitude] (.number magnitude) :=
    .powerChain (.chainAtom (.leaf rfl))
  have hsigned : Phrase .product (List.replicate signs .minus ++ [.number magnitude])
      (.negations signs (.number magnitude)) := .productSigned (.signs signs hnumber)
  match exponent with
  | 0 => exact hsigned
  | 1 =>
      have hproduct := Phrase.productJuxtaposed hsigned (.powerChain phrase_symbol)
      rwa [List.append_assoc] at hproduct
  | n + 2 =>
      have hexponent : Phrase .atom [.number ((n + 2 : Nat) : Rat)]
          (.number ((n + 2 : Nat) : Rat)) := .leaf rfl
      have hpower := Phrase.chainPower phrase_symbol hexponent
      have hproduct := Phrase.productJuxtaposed hsigned (.powerChain hpower)
      rwa [List.append_assoc] at hproduct

theorem phrase_leading (t : Term) : Phrase .product (leadingTokens t) (leadingTree t) :=
  phrase_term _ _ _

theorem phrase_following {tokens : List Token} {tree : Tree} (h : Phrase .sum tokens tree)
    (t : Term) : Phrase .sum (tokens ++ followingTokens t) (followingTree tree t) := by
  have hterm := phrase_leading ⟨|t.coefficient|, t.exponent⟩
  rw [followingTokens, followingTree]
  by_cases hneg : t.coefficient < 0
  · rw [if_pos hneg, if_pos hneg]
    exact .sumMinus h hterm
  · rw [if_neg hneg, if_neg hneg]
    exact .sumPlus h hterm

theorem phrase_terms {tokens : List Token} {tree : Tree} (h : Phrase .sum tokens tree)
    (list : List Term) :
    Phrase .sum (tokens ++ list.flatMap followingTokens) (list.foldl followingTree tree) := by
  induction list generalizing tokens tree with
  | nil => rwa [List.flatMap_nil, List.append_nil]
  | cons t list ih =>
      rw [List.flatMap_cons, ← List.append_assoc]
      exact ih (phrase_following h t)

end Phrases

section Values

variable {symbol : Char} {tree : Tree} {f : ℚ[X]}

theorem represents_term (symbol : Char) (signs : Nat) (magnitude : Rat) {exponent : Nat}
    (h : exponent < exponentLimit) :
    (termTree signs magnitude exponent).Represents symbol
      (monomial exponent ((-1) ^ signs * magnitude)) := by
  have hnumber := (Tree.represents_number symbol magnitude).negations signs
  have hconstant : (-1 : ℚ[X]) ^ signs * C magnitude = C ((-1) ^ signs * magnitude) := by
    simp
  rw [hconstant] at hnumber
  rw [← C_mul_X_pow_eq_monomial]
  match exponent with
  | 0 => rwa [pow_zero, mul_one]
  | 1 =>
      rw [pow_one]
      apply hnumber.multiply (Tree.represents_variable symbol)
      rw [natDegree_C, natDegree_X]
      decide
  | n + 2 =>
      have hpower := (Tree.represents_variable symbol).power h (by rwa [natDegree_X, Nat.one_mul])
      apply hnumber.multiply hpower
      rwa [natDegree_C, natDegree_X_pow, Nat.zero_add]

theorem represents_leading (symbol : Char) {t : Term} (h : t.exponent < exponentLimit) :
    (leadingTree t).Represents symbol (monomial t.exponent t.coefficient) := by
  have hterm := represents_term symbol (SparsePolynomial.signs t.coefficient) |t.coefficient| h
  have hvalue : (-1) ^ SparsePolynomial.signs t.coefficient * |t.coefficient| =
      t.coefficient := by
    rw [SparsePolynomial.signs]
    by_cases hneg : t.coefficient < 0
    · rw [if_pos hneg, abs_of_neg hneg, pow_one, neg_one_mul, neg_neg]
    · rw [if_neg hneg, abs_of_nonneg (not_lt.1 hneg), pow_zero, one_mul]
  rwa [hvalue] at hterm

theorem represents_following (htree : tree.Represents symbol f) {t : Term}
    (h : t.exponent < exponentLimit) :
    (followingTree tree t).Represents symbol (f + monomial t.exponent t.coefficient) := by
  have hterm := represents_leading symbol (t := ⟨|t.coefficient|, t.exponent⟩) h
  rw [followingTree]
  by_cases hneg : t.coefficient < 0
  · have hsub := htree.subtract hterm
    rw [abs_of_neg hneg, monomial_neg, sub_neg_eq_add] at hsub
    rwa [if_pos hneg, abs_of_neg hneg]
  · have hadd := htree.add hterm
    rw [abs_of_nonneg (not_lt.1 hneg)] at hadd
    rwa [if_neg hneg, abs_of_nonneg (not_lt.1 hneg)]

theorem represents_terms (htree : tree.Represents symbol f) {list : List Term}
    (h : ExponentsBelow exponentLimit list) :
    (list.foldl followingTree tree).Represents symbol (f + polynomialOf list) := by
  induction list generalizing tree f with
  | nil => rwa [polynomialOf, add_zero]
  | cons t list ih =>
      rw [exponentsBelow_cons] at h
      rw [polynomialOf, ← add_assoc]
      exact ih (represents_following htree h.1) h.2

end Values

namespace SparsePolynomial

open Rational (OnlyTwosAndFives)

variable {p : SparsePolynomial} {vocabulary : Vocabulary}

def textTree (p : SparsePolynomial) : Tree :=
  p.terms.tail.list.foldl followingTree (leadingTree p.terms.leading)

theorem represents_textTree (symbol : Char) (p : SparsePolynomial) :
    p.textTree.Represents symbol p.terms.toPolynomial := by
  have hleading : p.terms.leading.exponent < exponentLimit := p.degree_lt
  have htail : ExponentsBelow exponentLimit p.terms.tail.list :=
    (Terms.below_tail p.terms).mono (Nat.le_of_lt p.degree_lt)
  rw [← Terms.leading_add_tail_eq_toPolynomial]
  exact represents_terms (represents_leading symbol hleading) htail

theorem parseWith_text_of_onlyTwosAndFives (hsymbol : vocabulary.symbol = p.symbol)
    (hseparates : vocabulary.Separates)
    (h : ∀ t ∈ p.terms.stored, OnlyTwosAndFives t.coefficient.den) :
    ∃ parsed, parseWith vocabulary (toString p) = .ok parsed ∧ parsed.symbol = p.symbol ∧
      parsed.terms = p.terms := by
  obtain ⟨placed, hkinds, htokens⟩ :=
    Vocabulary.exists_tokens_of_lexes hseparates (lexes_text hseparates hsymbol h)
  have hphrase : Phrase .sum (placed.map PlacedToken.token) p.textTree := by
    rw [hkinds]
    exact phrase_terms (.sumProduct (phrase_leading _)) _
  obtain ⟨value, hvalue, hrepresents⟩ := represents_textTree vocabulary.symbol p
  refine ⟨vocabulary.configure (value.toPolynomial vocabulary.symbol), ?_, hsymbol, ?_⟩
  · change parseWith vocabulary (String.ofList p.text) = _
    rw [parseWith, String.toList_ofList]
    simp only [htokens]
    change (do
      let value ← Machine.evaluate vocabulary.symbol placed (byteLength p.text)
      return vocabulary.configure (value.toPolynomial vocabulary.symbol)) = _
    rw [Machine.evaluate_of_phrase hphrase, hvalue]
    rfl
  · exact Terms.toPolynomial_injective hrepresents.terms

theorem parseWith_text_of_not_onlyTwosAndFives (hsymbol : vocabulary.symbol = p.symbol)
    (hseparates : vocabulary.Separates)
    (h : ∃ t ∈ p.terms.stored, ¬ OnlyTwosAndFives t.coefficient.den) :
    '/' ∈ p.text ∧ parseWith vocabulary (toString p) =
      .error (.unknownCharacter '/' (byteLength (p.text.takeWhile (· ≠ '/')))) := by
  obtain ⟨input, after, kinds, htext, hlexes⟩ := exists_lexes_slash hseparates hsymbol h
  have hinput : ∀ c ∈ input, decide (c ≠ '/') = true := by
    intro c hc
    apply decide_eq_true
    rintro rfl
    exact Vocabulary.slash_not_mem_of_lexes hseparates hlexes hc
  have hbefore : p.text.takeWhile (· ≠ '/') = input := by
    rw [htext, List.takeWhile_append_of_pos hinput]
    exact List.append_nil input
  constructor
  · rw [htext]
    exact List.mem_append_right _ List.mem_cons_self
  · change parseWith vocabulary (String.ofList p.text) = _
    rw [hbefore, parseWith, String.toList_ofList, htext]
    simp only [Vocabulary.tokens_slash hseparates hlexes]
    rfl

/-- A written polynomial is read back exactly if all its coefficients are written as decimals. If
not, reading stops at the first slash. -/
theorem parseWith_toString (p : SparsePolynomial) (vocabulary : Vocabulary)
    (hsymbol : vocabulary.symbol = p.symbol) (hseparates : vocabulary.Separates) :
    ((∀ t ∈ p.terms.stored, OnlyTwosAndFives t.coefficient.den) →
      ∃ parsed, parseWith vocabulary (toString p) = .ok parsed ∧ (parsed == p) = true ∧
        parsed.symbol = p.symbol ∧ parsed.terms = p.terms) ∧
    ((∃ t ∈ p.terms.stored, ¬ OnlyTwosAndFives t.coefficient.den) →
      '/' ∈ p.text ∧ parseWith vocabulary (toString p) =
        .error (.unknownCharacter '/' (byteLength (p.text.takeWhile (· ≠ '/'))))) ∧
    ∀ parsed, parseWith vocabulary (toString p) = .ok parsed → (parsed == p) = true := by
  refine ⟨?_, ?_, ?_⟩
  · intro h
    obtain ⟨parsed, hparsed, hsame, hterms⟩ :=
      parseWith_text_of_onlyTwosAndFives hsymbol hseparates h
    exact ⟨parsed, hparsed, (beq_iff parsed p).2 ⟨hsame, hterms⟩, hsame, hterms⟩
  · exact parseWith_text_of_not_onlyTwosAndFives hsymbol hseparates
  · intro parsed hparsed
    by_cases h : ∀ t ∈ p.terms.stored, OnlyTwosAndFives t.coefficient.den
    · obtain ⟨result, hresult, hsame, hterms⟩ :=
        parseWith_text_of_onlyTwosAndFives hsymbol hseparates h
      rw [hparsed] at hresult
      cases hresult
      exact (beq_iff parsed p).2 ⟨hsame, hterms⟩
    · simp only [not_forall, exists_prop] at h
      have herror := (parseWith_text_of_not_onlyTwosAndFives hsymbol hseparates h).2
      rw [hparsed] at herror
      cases herror

/-- A variable of two bytes, with a constant beside it. -/
def accentedVocabulary : Vocabulary :=
  (Vocabulary.standard.withSymbol 'é').withConstant "pi" (22 / 7)

/-- Decimals of both signs, and the largest exponent. -/
def accentedDecimals : SparsePolynomial :=
  (ofTerms [(-1 / 20, ⟨4294967295, by decide⟩), (7 / 8, oneExponent),
    (-12, zeroExponent)]).withSymbol 'é'

/-- A fraction behind a decimal. -/
def accentedFractions : SparsePolynomial :=
  (ofTerms [(5 / 2, ⟨2, by decide⟩), (-1 / 3, zeroExponent)]).withSymbol 'é'

theorem parseWith_toString_accented :
    accentedVocabulary.symbol = accentedDecimals.symbol ∧
    accentedVocabulary.symbol = accentedFractions.symbol ∧ accentedVocabulary.Separates ∧
    (∃ parsed, parseWith accentedVocabulary (toString accentedDecimals) = .ok parsed ∧
      (parsed == accentedDecimals) = true) ∧
    parseWith accentedVocabulary (toString accentedFractions) =
      .error (.unknownCharacter '/' 12) := by
  have hseparates : accentedVocabulary.Separates :=
    ⟨by decide, by decide, by decide⟩
  have hdecimals : ∀ t ∈ accentedDecimals.terms.stored,
      OnlyTwosAndFives t.coefficient.den := by
    have hdvd : ∀ t ∈ accentedDecimals.terms.stored, t.coefficient.den ∣ 10 ^ 3 := by
      decide +kernel
    intro t ht
    exact Rational.onlyTwosAndFives_of_dvd_pow_ten (hdvd t ht)
  have hfractions : ∃ t ∈ accentedFractions.terms.stored,
      ¬ OnlyTwosAndFives t.coefficient.den := by
    have hthird : ∃ t ∈ accentedFractions.terms.stored, t.coefficient.den = 3 := by
      decide +kernel
    obtain ⟨t, ht, hden⟩ := hthird
    refine ⟨t, ht, ?_⟩
    intro h
    exact absurd (h 3 Nat.prime_three (hden ▸ Nat.dvd_refl 3)) (by decide)
  have hoffset : byteLength (accentedFractions.text.takeWhile (· ≠ '/')) = 12 := by
    decide +kernel
  refine ⟨rfl, rfl, hseparates, ?_, ?_⟩
  · obtain ⟨parsed, hparsed, hsame, _⟩ :=
      (parseWith_toString accentedDecimals accentedVocabulary rfl hseparates).1 hdecimals
    exact ⟨parsed, hparsed, hsame⟩
  · have herror :=
      ((parseWith_toString accentedFractions accentedVocabulary rfl hseparates).2.1 hfractions).2
    rwa [hoffset] at herror

end SparsePolynomial

end ExactAlgebra
