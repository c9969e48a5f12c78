import ExactAlgebra.Proofs.Expression.Literal

/-!
The lexical grammar of expressions. A text is cut from left to right into spaces, literals,
operators, names of constants and the variable, and the first character of a piece decides which of
them it can be. The scanner finds the tokens of a text exactly if the text can be cut. There is then
only one cut, and the tokens are those of its pieces.
-/

namespace ExactAlgebra

/-- The operators and parentheses. -/
def operators : List (Char × Token) :=
  [('+', .plus), ('-', .minus), ('*', .star), ('%', .percent), ('^', .caret), ('(', .opening),
    (')', .closing)]

theorem punctuation?_eq_some_iff {c : Char} {token : Token} :
    punctuation? c = some token ↔ (c, token) ∈ operators := by
  constructor
  · intro h
    unfold punctuation? at h
    split at h <;> first | (cases h; decide) | cases h
  · intro h
    simp only [operators, List.mem_cons, Prod.mk.injEq, List.not_mem_nil, or_false] at h
    rcases h with ⟨rfl, rfl⟩ | ⟨rfl, rfl⟩ | ⟨rfl, rfl⟩ | ⟨rfl, rfl⟩ | ⟨rfl, rfl⟩ | ⟨rfl, rfl⟩ |
      ⟨rfl, rfl⟩ <;> rfl

/-- Any character that is no space, no digit, no point and no operator begins a name. -/
structure BeginsName (c : Char) : Prop where
  not_space : c ≠ ' '
  not_numeric : isNumeric c = false
  not_operator : ∀ token, (c, token) ∉ operators

theorem punctuation?_of_beginsName {c : Char} (h : BeginsName c) : punctuation? c = none := by
  rw [Option.eq_none_iff_forall_ne_some]
  exact fun token htoken => h.not_operator token (punctuation?_eq_some_iff.1 htoken)

/-- A character is of one of four kinds. -/
theorem first_cases (c : Char) :
    c = ' ' ∨ isNumeric c = true ∨ (∃ token, (c, token) ∈ operators) ∨ BeginsName c := by
  by_contra! h
  obtain ⟨hspace, hnumeric, hoperator, hname⟩ := h
  exact hname ⟨hspace, Bool.eq_false_iff.2 hnumeric, hoperator⟩

/-- A part of a text, and the token that it stands for unless it is a space. -/
structure Piece where
  text : List Char
  token : Option Token

/-- The tokens of pieces that follow each other from a position on. -/
def placedTokens (position : Nat) : List Piece → List PlacedToken
  | [] => []
  | piece :: pieces =>
      piece.token.toList.map (⟨·, position⟩) ++
        placedTokens (position + (String.ofList piece.text).utf8ByteSize) pieces

theorem utf8ByteSize_ofList (text : List Char) :
    (String.ofList text).utf8ByteSize = byteLength text := by
  induction text with
  | nil => rfl
  | cons c text ih =>
      rw [String.ofList_cons, String.utf8ByteSize_append, String.utf8ByteSize_singleton, ih,
        byteLength]

namespace Vocabulary

/-- A piece that can be cut off in front of the given rest. A literal goes on as long as there are
digits and points, and a name is the longest of those that the text begins with. -/
inductive IsPiece (vocabulary : Vocabulary) (rest : List Char) : Piece → Prop
  | space : IsPiece vocabulary rest ⟨[' '], none⟩
  | number {literal : List Char} (hliteral : IsLiteral literal) (hends : EndsNumber rest) :
      IsPiece vocabulary rest ⟨literal, some (.number (literalValue literal))⟩
  | operator {c : Char} {token : Token} (hoperator : (c, token) ∈ operators) :
      IsPiece vocabulary rest ⟨[c], some token⟩
  | constant {constant : NamedConstant} (hfirst : ∀ c ∈ constant.name.toList.head?, BeginsName c)
      (hlongest : IsLongest (constant.name.toList ++ rest) vocabulary.constants constant) :
      IsPiece vocabulary rest ⟨constant.name.toList, some (.constant constant.value)⟩
  | symbol (hfirst : BeginsName vocabulary.symbol)
      (hnone : ∀ c ∈ vocabulary.constants, ¬ c.name.toList <+: vocabulary.symbol :: rest) :
      IsPiece vocabulary rest ⟨[vocabulary.symbol], some .symbol⟩

/-- The text is cut into the pieces, from left to right. -/
inductive IsCut (vocabulary : Vocabulary) : List Char → List Piece → Prop
  | nil : IsCut vocabulary [] []
  | cons {rest : List Char} {piece : Piece} {pieces : List Piece}
      (hpiece : vocabulary.IsPiece rest piece) (hrest : IsCut vocabulary rest pieces) :
      IsCut vocabulary (piece.text ++ rest) (piece :: pieces)

variable {vocabulary : Vocabulary} {rest : List Char} {c : Char}

theorem lexeme_of_isNumeric (h : isNumeric c = true) (position : Nat) :
    vocabulary.lexeme position c rest =
      (numberValue position (c :: rest.takeWhile isNumeric)).map fun value =>
        ⟨some (.number value), (rest.takeWhile isNumeric).length⟩ := by
  have hspace : c ≠ ' ' := by
    rintro rfl
    cases h
  rw [lexeme, if_neg hspace, if_pos h]

theorem exists_name_eq_cons {constant : NamedConstant} (h : constant ∈ vocabulary.constants) :
    ∃ first following, constant.name.toList = first :: following :=
  List.exists_cons_of_ne_nil (mt String.toList_eq_nil_iff.1 (vocabulary.named _ h))

theorem lexeme_of_isLongest {constant : NamedConstant} (h : BeginsName c)
    (hlongest : IsLongest (c :: rest) vocabulary.constants constant) (position : Nat) :
    vocabulary.lexeme position c rest =
      .ok ⟨some (.constant constant.value), constant.name.length - 1⟩ := by
  rw [lexeme, if_neg h.not_space, if_neg (by rw [h.not_numeric]; decide),
    punctuation?_of_beginsName h, longestConstant?_eq_some_iff.2 hlongest]

/-- Where no constant begins there is the variable or an error. -/
theorem lexeme_of_no_constant (h : BeginsName c)
    (hnone : ∀ constant ∈ vocabulary.constants, ¬ constant.name.toList <+: c :: rest)
    (position : Nat) :
    vocabulary.lexeme position c rest =
      if c = vocabulary.symbol then .ok ⟨some .symbol, 0⟩
      else if vocabulary.startsConstant c then
        .error (.unknownIdentifier
          (String.ofList ((c :: rest).takeWhile Text.isAlphanumeric)) position)
      else .error (.unknownCharacter c position) := by
  rw [lexeme, if_neg h.not_space, if_neg (by rw [h.not_numeric]; decide),
    punctuation?_of_beginsName h, longestConstant?_eq_none_iff.2 hnone]

/-- A piece is found by its first character, wherever it stands. -/
theorem lexeme_of_isPiece {piece : Piece} (h : vocabulary.IsPiece rest piece) :
    ∃ c following, piece.text = c :: following ∧ ∀ position,
      vocabulary.lexeme position c (following ++ rest) = .ok ⟨piece.token, following.length⟩ := by
  cases h with
  | space => exact ⟨' ', [], rfl, fun position => rfl⟩
  | @number literal hliteral hends =>
      cases literal with
      | nil => exact absurd rfl hliteral.ne_nil
      | cons c run => exact ⟨c, run, rfl, lexeme_numeral hliteral.numeral hends⟩
  | operator hoperator =>
      exact ⟨_, [], rfl, fun position =>
        lexeme_punctuation (punctuation?_eq_some_iff.2 hoperator) position _⟩
  | @constant constant hfirst hlongest =>
      obtain ⟨c, following, hname⟩ := exists_name_eq_cons hlongest.mem
      rw [hname, List.cons_append] at hlongest
      rw [hname] at hfirst
      refine ⟨c, following, hname, fun position => ?_⟩
      rw [lexeme_of_isLongest (hfirst c rfl) hlongest, ← String.length_toList, hname]
      rfl
  | symbol hfirst hnone =>
      refine ⟨vocabulary.symbol, [], rfl, fun position => ?_⟩
      rw [List.nil_append, lexeme_of_no_constant hfirst hnone, if_pos rfl]
      rfl

/-- A text begins with digits and points, maybe none, and goes on with what ends a number. -/
theorem exists_numeric_append (input : List Char) :
    ∃ run rest, input = run ++ rest ∧ (∀ c ∈ run, isNumeric c = true) ∧ EndsNumber rest :=
  ⟨input.takeWhile isNumeric, input.dropWhile isNumeric, List.takeWhile_append_dropWhile.symm,
    fun _ hc => List.mem_takeWhile_imp hc, Guarded.endsNumber_dropWhile input⟩

/-- A name that a text begins with has the first character of the text. -/
theorem exists_name_append {constant : NamedConstant}
    (hlongest : IsLongest (c :: rest) vocabulary.constants constant) :
    ∃ following others, constant.name.toList = c :: following ∧ rest = following ++ others := by
  obtain ⟨others, hothers⟩ := hlongest.begins
  obtain ⟨d, following, hname⟩ := exists_name_eq_cons hlongest.mem
  rw [hname, List.cons_append] at hothers
  obtain ⟨rfl, rfl⟩ := List.cons_eq_cons.1 hothers
  exact ⟨following, others, hname, rfl⟩

/-- What is found is a piece in front of what is left. -/
theorem isPiece_of_lexeme {position : Nat} {next : Lexeme}
    (h : vocabulary.lexeme position c rest = .ok next) :
    vocabulary.IsPiece (rest.drop next.following) ⟨c :: rest.take next.following, next.token⟩ := by
  rcases first_cases c with rfl | hnumeric | ⟨token, hoperator⟩ | hfirst
  · cases h
    exact .space
  · obtain ⟨run, others, rfl, hrun, hends⟩ := exists_numeric_append rest
    rw [lexeme_of_isNumeric hnumeric, takeWhile_isNumeric_append hrun hends] at h
    obtain ⟨value, hvalue, rfl⟩ := eq_ok_of_map h
    obtain ⟨hliteral, rfl⟩ := (numberValue_eq_ok_iff (List.cons_ne_nil c run)
      (List.forall_mem_cons.2 ⟨hnumeric, hrun⟩)).1 hvalue
    rw [List.take_left, List.drop_left]
    exact .number hliteral hends
  · rw [lexeme_punctuation (punctuation?_eq_some_iff.2 hoperator)] at h
    cases h
    exact .operator hoperator
  · cases hconstant : vocabulary.longestConstant? (c :: rest) with
    | some constant =>
        have hlongest := longestConstant?_eq_some_iff.1 hconstant
        obtain ⟨following, others, hname, rfl⟩ := exists_name_append hlongest
        rw [lexeme_of_isLongest hfirst hlongest, ← String.length_toList, hname] at h
        cases h
        change vocabulary.IsPiece ((following ++ others).drop following.length)
          ⟨c :: (following ++ others).take following.length, _⟩
        rw [List.take_left, List.drop_left, ← hname]
        refine .constant ?_ ?_
        · rw [hname]
          rintro d ⟨⟩
          exact hfirst
        · rw [hname]
          exact hlongest
    | none =>
        have hnone := longestConstant?_eq_none_iff.1 hconstant
        rw [lexeme_of_no_constant hfirst hnone] at h
        by_cases hsymbol : c = vocabulary.symbol
        · rw [if_pos hsymbol] at h
          cases h
          subst hsymbol
          exact .symbol hfirst hnone
        · rw [if_neg hsymbol] at h
          split at h <;> cases h

/-- A text that is cut into pieces has their tokens. -/
theorem tokensFrom_of_isCut {input : List Char} {pieces : List Piece}
    (h : vocabulary.IsCut input pieces) (position : Nat) :
    vocabulary.tokensFrom position input = .ok (placedTokens position pieces) := by
  induction h generalizing position with
  | nil =>
      rw [tokensFrom]
      rfl
  | @cons rest piece pieces hpiece hrest ih =>
      obtain ⟨c, following, htext, hlexeme⟩ := lexeme_of_isPiece hpiece
      rw [htext, List.cons_append, tokensFrom_of_lexeme (hlexeme position), List.take_left,
        List.drop_left, ih, placedTokens, utf8ByteSize_ofList, htext]
      rfl

theorem text_of_isPiece_operator {text : List Char} {token : Token}
    (hoperator : (c, token) ∈ operators) (h : vocabulary.IsPiece rest ⟨text, some token⟩) :
    text = [c] := by
  simp only [operators, List.mem_cons, Prod.mk.injEq, List.not_mem_nil, or_false] at hoperator
  cases h with
  | operator hother =>
      rcases hoperator with ⟨rfl, rfl⟩ | ⟨rfl, rfl⟩ | ⟨rfl, rfl⟩ | ⟨rfl, rfl⟩ | ⟨rfl, rfl⟩ |
        ⟨rfl, rfl⟩ | ⟨rfl, rfl⟩ <;> simpa [operators] using hother
  | _ => simp at hoperator

/-- Every operator among the tokens of a text stands somewhere in the text, and the scanner comes
there with the tokens behind it still to find. -/
theorem exists_append_of_isCut {input : List Char} {pieces : List Piece} {token : Token}
    (h : vocabulary.IsCut input pieces) (hoperator : (c, token) ∈ operators) {position i : Nat}
    {left right : List PlacedToken}
    (hplaced : placedTokens position pieces = left ++ ⟨token, i⟩ :: right) :
    ∃ before after, input = before ++ c :: after ∧ i = position + byteLength before ∧
      vocabulary.tokensFrom (position + byteLength before) (c :: after) =
        .ok (⟨token, i⟩ :: right) := by
  induction h generalizing position left with
  | nil => simp [placedTokens] at hplaced
  | @cons rest piece pieces hpiece hrest ih =>
      have hlater : ∀ others, placedTokens (position + byteLength piece.text) pieces =
          others ++ ⟨token, i⟩ :: right → ∃ before after,
            piece.text ++ rest = before ++ c :: after ∧ i = position + byteLength before ∧
            vocabulary.tokensFrom (position + byteLength before) (c :: after) =
              .ok (⟨token, i⟩ :: right) := by
        intro others hothers
        obtain ⟨before, after, rfl, hposition, htokens⟩ := ih hothers
        rw [Nat.add_assoc, ← byteLength_append] at hposition htokens
        exact ⟨piece.text ++ before, after, (List.append_assoc _ _ _).symm, hposition, htokens⟩
      have hcut := tokensFrom_of_isCut (.cons hpiece hrest) position
      rw [hplaced] at hcut
      rw [placedTokens, utf8ByteSize_ofList] at hplaced
      obtain ⟨text, found⟩ := piece
      cases found with
      | none => exact hlater left hplaced
      | some found =>
          cases left with
          | nil =>
              obtain ⟨hfirst, _⟩ := List.cons_eq_cons.1 hplaced
              cases hfirst
              obtain rfl := text_of_isPiece_operator hoperator hpiece
              exact ⟨[], rest, rfl, rfl, hcut⟩
          | cons first left => exact hlater left (List.cons_eq_cons.1 hplaced).2

/-- A text that has tokens is cut into pieces that have them. -/
theorem exists_isCut_of_tokensFrom {position : Nat} {input : List Char}
    {tokens : List PlacedToken} (h : vocabulary.tokensFrom position input = .ok tokens) :
    ∃ pieces, vocabulary.IsCut input pieces ∧ placedTokens position pieces = tokens := by
  -- A piece takes several characters, so the induction is on the length of what is left.
  induction hlength : input.length using Nat.strongRecOn generalizing position input tokens with
  | ind length ih =>
      cases input with
      | nil =>
          rw [tokensFrom] at h
          cases h
          exact ⟨[], .nil, rfl⟩
      | cons c rest =>
          obtain ⟨next, following, hnext, hfollowing, rfl⟩ := exists_lexeme_of_tokensFrom h
          have hshorter : (rest.drop next.following).length < length := by
            rw [← hlength, List.length_drop, List.length_cons]
            omega
          obtain ⟨pieces, hpieces, rfl⟩ := ih _ hshorter hfollowing rfl
          have hcut := IsCut.cons (isPiece_of_lexeme hnext) hpieces
          rw [List.cons_append, List.take_append_drop] at hcut
          refine ⟨_, hcut, ?_⟩
          rw [placedTokens, utf8ByteSize_ofList]

theorem tokensFrom_eq_ok_iff {position : Nat} {input : List Char} {tokens : List PlacedToken} :
    vocabulary.tokensFrom position input = .ok tokens ↔
      ∃ pieces, vocabulary.IsCut input pieces ∧ placedTokens position pieces = tokens := by
  refine ⟨exists_isCut_of_tokensFrom, ?_⟩
  rintro ⟨pieces, hcut, rfl⟩
  exact tokensFrom_of_isCut hcut position

/-- The first piece of a text is determined by the text. -/
theorem isPiece_unique {piece other : Piece} {others : List Char}
    (hpiece : vocabulary.IsPiece rest piece) (hother : vocabulary.IsPiece others other)
    (h : piece.text ++ rest = other.text ++ others) : piece = other ∧ rest = others := by
  obtain ⟨text, token⟩ := piece
  obtain ⟨otherText, otherToken⟩ := other
  obtain ⟨c, following, rfl, hlexeme⟩ := lexeme_of_isPiece hpiece
  obtain ⟨d, otherFollowing, rfl, hotherLexeme⟩ := lexeme_of_isPiece hother
  obtain ⟨rfl, hrest⟩ : c = d ∧ following ++ rest = otherFollowing ++ others :=
    List.cons_eq_cons.1 h
  have hsame := hlexeme 0
  rw [hrest, hotherLexeme 0] at hsame
  obtain ⟨rfl, hlength⟩ : otherToken = token ∧ otherFollowing.length = following.length := by
    simpa using hsame
  obtain ⟨rfl, rfl⟩ := List.append_inj hrest hlength.symm
  exact ⟨rfl, rfl⟩

/-- A text can be cut in one way only. -/
theorem IsCut.unique {input : List Char} {pieces others : List Piece}
    (h : vocabulary.IsCut input pieces) (hothers : vocabulary.IsCut input others) :
    pieces = others := by
  induction h generalizing others with
  | nil =>
      generalize hinput : ([] : List Char) = input at hothers
      cases hothers with
      | nil => rfl
      | cons hpiece _ =>
          obtain ⟨c, following, htext, _⟩ := lexeme_of_isPiece hpiece
          rw [htext] at hinput
          cases hinput
  | @cons rest piece pieces hpiece hrest ih =>
      generalize hinput : piece.text ++ rest = input at hothers
      cases hothers with
      | nil =>
          obtain ⟨c, following, htext, _⟩ := lexeme_of_isPiece hpiece
          rw [htext] at hinput
          cases hinput
      | cons hother hothers =>
          obtain ⟨rfl, rfl⟩ := isPiece_unique hpiece hother hinput
          rw [ih hothers]

/-- The scanner accepts exactly the texts that can be cut into pieces of the grammar, in one way
only, and the tokens are those of the pieces in order, each at the byte where its piece begins. -/
theorem tokens_eq_ok_iff_isCut (vocabulary : Vocabulary) (input : List Char) :
    (∀ tokens, vocabulary.tokens input = .ok tokens ↔
      ∃ pieces, vocabulary.IsCut input pieces ∧ placedTokens 0 pieces = tokens) ∧
    (∀ tokens, Guarded.tokensFrom vocabulary input 0 = .ok tokens ↔
      ∃ pieces, vocabulary.IsCut input pieces ∧ placedTokens 0 pieces = tokens) ∧
    {pieces | vocabulary.IsCut input pieces}.Subsingleton := by
  refine ⟨fun tokens => tokensFrom_eq_ok_iff, fun tokens => ?_, ?_⟩
  · rw [Guarded.tokens_eq, Guarded.unguarded_eq_ok_iff]
    exact tokensFrom_eq_ok_iff
  · exact fun pieces h others hothers => h.unique hothers

/-- The longer name wins, and positions count bytes. -/
example :
    ((standard.withConstant "π" 3).withConstant "πx" 4).tokens "2.5 ππxx".toList =
      .ok [⟨.number (5 / 2), 0⟩, ⟨.constant 3, 4⟩, ⟨.constant 4, 6⟩, ⟨.symbol, 9⟩] := by
  decide +kernel

end Vocabulary

end ExactAlgebra
