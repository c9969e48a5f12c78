import ExactAlgebra.Proofs.Expression.Lexing
import ExactAlgebra.Proofs.Results

/-!
Reading with the variable bound to a number. A constant whose name is the symbol of the variable
takes over exactly where the variable was read: longer names still win, and where another constant
was found, the new one is not longer. So the tokens stay the same, except that the variable becomes
the number.
-/

namespace ExactAlgebra

/-- The constant is among the given ones, the text begins with its name, and it does not begin with
a longer name of the others. -/
structure IsLongest (input : List Char) (constants : List NamedConstant) (best : NamedConstant) :
    Prop where
  mem : best ∈ constants
  begins : best.name.toList <+: input
  longest : ∀ c ∈ constants, c.name.toList <+: input → c.name.length ≤ best.name.length

namespace Vocabulary

variable {input : List Char} {constants : List NamedConstant} {best other : NamedConstant}

theorem isLongest_cons {c : NamedConstant}
    (hc : c.name.toList <+: input → c.name.length ≤ best.name.length)
    (h : IsLongest input constants best) : IsLongest input (c :: constants) best where
  mem := List.mem_cons_of_mem c h.mem
  begins := h.begins
  longest d hd := by
    rcases List.mem_cons.1 hd with rfl | hd
    · exact hc
    · exact h.longest d hd

/-- The first name is the longest if no other one that begins the text is longer. -/
theorem isLongest_self {c : NamedConstant} (hc : c.name.toList <+: input)
    (hothers : ∀ d ∈ constants, d.name.toList <+: input → d.name.length ≤ c.name.length) :
    IsLongest input (c :: constants) c where
  mem := List.mem_cons_self
  begins := hc
  longest := List.forall_mem_cons.2 ⟨fun _ => Nat.le_refl _, hothers⟩

/-- What the search finds is the longest, and it finds nothing only if there is nothing. -/
theorem longestAmong_spec (input : List Char) (constants : List NamedConstant) :
    (∀ best, longestAmong input constants = some best → IsLongest input constants best) ∧
    (longestAmong input constants = none → ∀ c ∈ constants, ¬ c.name.toList <+: input) := by
  induction constants with
  | nil => exact ⟨fun best h => (by cases h), fun _ c hc => (by cases hc)⟩
  | cons c rest ih =>
      obtain ⟨ihFound, ihNone⟩ := ih
      rw [longestAmong]
      cases hrest : longestAmong input rest with
      | none =>
          have hnone := ihNone hrest
          by_cases hc : c.name.toList <+: input
          · rw [if_pos (List.isPrefixOf_iff_prefix.2 hc)]
            refine ⟨?_, fun h => (by cases h)⟩
            rintro best ⟨⟩
            exact isLongest_self hc fun d hd hbegins => absurd hbegins (hnone d hd)
          · rw [if_neg (fun h => hc (List.isPrefixOf_iff_prefix.1 h))]
            exact ⟨fun best h => (by cases h), fun _ => List.forall_mem_cons.2 ⟨hc, hnone⟩⟩
      | some found =>
          have hfound := ihFound found hrest
          simp only [Bool.and_eq_true, decide_eq_true_eq, List.isPrefixOf_iff_prefix]
          refine ⟨?_, fun h => (by split at h <;> cases h)⟩
          intro best hbest
          split at hbest
          · rename_i hlonger
            cases hbest
            apply isLongest_self hlonger.1
            intro d hd hbegins
            exact Nat.le_trans (hfound.longest d hd hbegins) (Nat.le_of_lt hlonger.2)
          · rename_i hnot
            cases hbest
            apply isLongest_cons _ hfound
            intro hbegins
            exact Nat.le_of_not_lt fun hlt => hnot ⟨hbegins, hlt⟩

theorem precedes_irrefl (name : List Char) : precedes name name = false := by
  induction name with
  | nil => rfl
  | cons c name ih => simp [precedes, ih]

theorem name_ne_of_before {a b : NamedConstant} (h : a.Before b) : a.name ≠ b.name := by
  intro heq
  rw [NamedConstant.Before, heq, precedes_irrefl] at h
  cases h

/-- Constants have distinct names. -/
theorem eq_of_name_eq (vocabulary : Vocabulary) {a b : NamedConstant}
    (ha : a ∈ vocabulary.constants) (hb : b ∈ vocabulary.constants) (h : a.name = b.name) :
    a = b := by
  have hdistinct : (vocabulary.constants.map NamedConstant.name).Nodup :=
    List.pairwise_map.2 (vocabulary.ascending.imp name_ne_of_before)
  exact List.inj_on_of_nodup_map hdistinct ha hb h

/-- Two names of the same length that a text begins with are the same. -/
theorem name_eq_of_begins {a b : NamedConstant} (ha : a.name.toList <+: input)
    (hb : b.name.toList <+: input) (hlength : a.name.length = b.name.length) : a.name = b.name := by
  rw [← String.length_toList, ← String.length_toList] at hlength
  have hinitial := List.prefix_of_prefix_length_le ha hb (Nat.le_of_eq hlength)
  exact String.toList_inj.1 (hinitial.eq_of_length hlength)

theorem longestConstant?_eq_some_iff {vocabulary : Vocabulary} :
    vocabulary.longestConstant? input = some best ↔
      IsLongest input vocabulary.constants best := by
  obtain ⟨hfound, hnone⟩ := longestAmong_spec input vocabulary.constants
  refine ⟨hfound best, ?_⟩
  intro hbest
  rw [longestConstant?]
  cases hsearch : longestAmong input vocabulary.constants with
  | none => exact absurd hbest.begins (hnone hsearch best hbest.mem)
  | some found =>
      have hother := hfound found hsearch
      have hlength : found.name.length = best.name.length :=
        Nat.le_antisymm (hbest.longest found hother.mem hother.begins)
          (hother.longest best hbest.mem hbest.begins)
      rw [vocabulary.eq_of_name_eq hother.mem hbest.mem
        (name_eq_of_begins hother.begins hbest.begins hlength)]

theorem longestConstant?_eq_none_iff {vocabulary : Vocabulary} :
    vocabulary.longestConstant? input = none ↔
      ∀ c ∈ vocabulary.constants, ¬ c.name.toList <+: input := by
  obtain ⟨hfound, hnone⟩ := longestAmong_spec input vocabulary.constants
  refine ⟨hnone, ?_⟩
  intro h
  rw [longestConstant?]
  cases hsearch : longestAmong input vocabulary.constants with
  | none => rfl
  | some found =>
      have hother := hfound found hsearch
      exact absurd hother.begins (h found hother.mem)

/-- A name that is not bound yet only adds its constant. -/
theorem mem_insertConstant_iff {constant c : NamedConstant} {list : List NamedConstant}
    (hnew : ∀ d ∈ list, d.name ≠ constant.name) :
    c ∈ insertConstant constant list ↔ c = constant ∨ c ∈ list := by
  refine ⟨mem_insertConstant, ?_⟩
  induction list with
  | nil => simp [insertConstant]
  | cons d rest ih =>
      have hd := hnew d List.mem_cons_self
      have hrest := ih fun e he => hnew e (List.mem_cons_of_mem d he)
      rw [insertConstant, if_neg (Ne.symm hd)]
      split
      · simp
      · grind

/-- The vocabulary with the symbol of the variable as the name of a number. -/
def bindSymbol (vocabulary : Vocabulary) (value : Rat) : Vocabulary :=
  vocabulary.withConstant (String.singleton vocabulary.symbol) value

variable {vocabulary : Vocabulary} {value : Rat}

theorem singleton_ne_empty (c : Char) : String.singleton c ≠ "" := by
  intro h
  have hlist := congrArg String.toList h
  simp at hlist

theorem setting_bindSymbol (vocabulary : Vocabulary) (value : Rat) :
    (vocabulary.bindSymbol value).setting = vocabulary.setting := by
  rw [bindSymbol, withConstant, dif_neg (singleton_ne_empty _)]

theorem name_ne_of_constant?_eq_none {name : String} (h : vocabulary.constant? name = none) :
    ∀ c ∈ vocabulary.constants, c.name ≠ name := by
  rw [constant?, Option.map_eq_none_iff, List.find?_eq_none] at h
  intro c hc hname
  exact h c hc (beq_iff_eq.2 hname)

section Bound

variable (hfree : vocabulary.constant? (String.singleton vocabulary.symbol) = none)

include hfree

theorem mem_constants_bindSymbol {c : NamedConstant} :
    c ∈ (vocabulary.bindSymbol value).constants ↔
      c = ⟨String.singleton vocabulary.symbol, value⟩ ∨ c ∈ vocabulary.constants := by
  rw [bindSymbol, withConstant, dif_neg (singleton_ne_empty _)]
  exact mem_insertConstant_iff (name_ne_of_constant?_eq_none hfree)

/-- Where a constant was read, it still is. -/
theorem longestConstant?_bindSymbol_of_some (h : vocabulary.longestConstant? input = some best) :
    (vocabulary.bindSymbol value).longestConstant? input = some best := by
  rw [longestConstant?_eq_some_iff] at h ⊢
  refine ⟨(mem_constants_bindSymbol hfree).2 (Or.inr h.mem), h.begins, ?_⟩
  intro c hc hbegins
  rcases (mem_constants_bindSymbol hfree).1 hc with rfl | hc
  · have hlength : best.name.length ≠ 0 :=
      mt String.length_eq_zero_iff.1 (vocabulary.named best h.mem)
    rw [String.length_singleton]
    omega
  · exact h.longest c hc hbegins

/-- Where no constant was read, the variable is one now. -/
theorem longestConstant?_bindSymbol_of_none {rest : List Char}
    (h : vocabulary.longestConstant? (vocabulary.symbol :: rest) = none) :
    (vocabulary.bindSymbol value).longestConstant? (vocabulary.symbol :: rest) =
      some ⟨String.singleton vocabulary.symbol, value⟩ := by
  rw [longestConstant?_eq_none_iff] at h
  rw [longestConstant?_eq_some_iff]
  refine ⟨(mem_constants_bindSymbol hfree).2 (Or.inl rfl), ?_, ?_⟩
  · rw [String.toList_singleton]
    exact List.prefix_cons_inj _ |>.2 List.nil_prefix
  · intro c hc hbegins
    rcases (mem_constants_bindSymbol hfree).1 hc with rfl | hc
    · exact Nat.le_refl _
    · exact absurd hbegins (h c hc)

end Bound

end Vocabulary

def Token.bind (value : Rat) : Token → Token
  | .symbol => .constant value
  | token => token

def PlacedToken.bind (value : Rat) (placed : PlacedToken) : PlacedToken :=
  ⟨placed.token.bind value, placed.position⟩

def Lexeme.bind (value : Rat) (next : Lexeme) : Lexeme :=
  ⟨next.token.map (Token.bind value), next.following⟩

namespace Vocabulary

variable {vocabulary : Vocabulary} {value : Rat}

theorem bind_of_punctuation {c : Char} {token : Token} (h : punctuation? c = some token) :
    token.bind value = token := by
  unfold punctuation? at h
  split at h <;> first | (cases h; rfl) | cases h

/-- A lexeme is the same, except for the variable. -/
theorem lexeme_bindSymbol (hfree : vocabulary.constant? (String.singleton vocabulary.symbol) = none)
    {position : Nat} {c : Char} {rest : List Char} {next : Lexeme}
    (h : vocabulary.lexeme position c rest = .ok next) :
    (vocabulary.bindSymbol value).lexeme position c rest = .ok (next.bind value) := by
  rw [lexeme] at h ⊢
  by_cases hspace : c = ' '
  · rw [if_pos hspace] at h ⊢
    cases h
    rfl
  rw [if_neg hspace] at h ⊢
  by_cases hnumeric : isNumeric c = true
  · rw [if_pos hnumeric] at h ⊢
    simp only at h ⊢
    obtain ⟨number, hnumber, rfl⟩ := eq_ok_of_map h
    rw [hnumber]
    rfl
  rw [if_neg hnumeric] at h ⊢
  cases hpunctuation : punctuation? c with
  | some token =>
      rw [hpunctuation] at h
      cases h
      rw [Lexeme.bind, Option.map_some, bind_of_punctuation hpunctuation]
  | none =>
      rw [hpunctuation] at h
      cases hconstant : vocabulary.longestConstant? (c :: rest) with
      | some constant =>
          rw [hconstant] at h
          cases h
          rw [longestConstant?_bindSymbol_of_some hfree hconstant]
          rfl
      | none =>
          rw [hconstant] at h
          by_cases hsymbol : c = vocabulary.symbol
          · subst hsymbol
            simp only [if_true] at h
            cases h
            rw [longestConstant?_bindSymbol_of_none hfree hconstant]
            simp [Lexeme.bind, Token.bind]
          · simp only [if_neg hsymbol] at h
            split at h <;> cases h

/-- The tokens of a text begin with those of its first lexeme. -/
theorem exists_lexeme_of_tokensFrom {position : Nat} {c : Char} {rest : List Char}
    {tokens : List PlacedToken} (h : vocabulary.tokensFrom position (c :: rest) = .ok tokens) :
    ∃ next following, vocabulary.lexeme position c rest = .ok next ∧
      vocabulary.tokensFrom (position + byteLength (c :: rest.take next.following))
        (rest.drop next.following) = .ok following ∧
      tokens = next.token.toList.map (⟨·, position⟩) ++ following := by
  obtain ⟨next, hnext⟩ : ∃ next, vocabulary.lexeme position c rest = .ok next := by
    rw [tokensFrom] at h
    obtain ⟨next, hnext, _⟩ := eq_ok_of_bind h
    exact ⟨next, hnext⟩
  rw [tokensFrom_of_lexeme hnext] at h
  obtain ⟨following, hfollowing, rfl⟩ := eq_ok_of_map h
  exact ⟨next, following, hnext, hfollowing, rfl⟩

theorem tokensFrom_bindSymbol
    (hfree : vocabulary.constant? (String.singleton vocabulary.symbol) = none)
    {position : Nat} {input : List Char} {tokens : List PlacedToken}
    (h : vocabulary.tokensFrom position input = .ok tokens) :
    (vocabulary.bindSymbol value).tokensFrom position input =
      .ok (tokens.map (PlacedToken.bind value)) := by
  induction hlength : input.length using Nat.strongRecOn generalizing position input tokens with
  | ind length ih =>
      cases input with
      | nil =>
          rw [tokensFrom] at h ⊢
          cases h
          rfl
      | cons c rest =>
          obtain ⟨next, following, hnext, hfollowing, rfl⟩ := exists_lexeme_of_tokensFrom h
          have hshorter : (rest.drop next.following).length < length := by
            rw [← hlength, List.length_drop, List.length_cons]
            omega
          have hrest := ih _ hshorter hfollowing rfl
          have hlexeme : (vocabulary.bindSymbol value).lexeme position c rest =
              .ok (next.bind value) := lexeme_bindSymbol hfree hnext
          rw [tokensFrom_of_lexeme hlexeme]
          obtain ⟨token, length⟩ := next
          change Except.map _ ((vocabulary.bindSymbol value).tokensFrom
            (position + byteLength (c :: rest.take length)) (rest.drop length)) = _
          rw [hrest, List.map_append]
          cases token <;> rfl

/-- The tokens of a text with the variable bound to a number are its tokens with the variable
replaced by the number. -/
theorem tokens_bindSymbol
    (hfree : vocabulary.constant? (String.singleton vocabulary.symbol) = none)
    {input : List Char} {tokens : List PlacedToken} (h : vocabulary.tokens input = .ok tokens) :
    (vocabulary.bindSymbol value).tokens input = .ok (tokens.map (PlacedToken.bind value)) :=
  tokensFrom_bindSymbol hfree h

end Vocabulary

end ExactAlgebra
