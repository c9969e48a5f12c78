import ExactAlgebra.Proofs.Expression.LexicalGrammar

/-!
Texts that cannot be cut to their end. The scanner stops at the first place where no piece begins.
Up to there it has found the pieces of the text before, and it reports the character, the name or
the point that stands there. The name is a run of letters and digits, whatever the names of the
constants are made of; so it is empty where a constant's first character is neither.
-/

namespace ExactAlgebra

theorem EndsNumber.of_append {rest text : List Char} (h : EndsNumber (rest ++ text)) :
    EndsNumber rest := by
  cases rest with
  | nil => exact fun c hc => (by cases hc)
  | cons c rest => exact h

theorem isNumeric_decimal {whole fraction : List Char} (hwhole : ∀ c ∈ whole, c.isDigit = true)
    (hfraction : ∀ c ∈ fraction, isNumeric c = true) :
    ∀ c ∈ whole ++ '.' :: fraction, isNumeric c = true :=
  List.forall_mem_append.2
    ⟨fun c hc => isNumeric_of_isDigit (hwhole c hc), List.forall_mem_cons.2 ⟨rfl, hfraction⟩⟩

theorem byteLength_decimal {whole fraction : List Char} (hwhole : ∀ c ∈ whole, c.isDigit = true)
    (hfraction : ∀ c ∈ fraction, c.isDigit = true) :
    byteLength (whole ++ '.' :: fraction) = whole.length + 1 + fraction.length := by
  have hnumeric := isNumeric_decimal hwhole fun c hc => isNumeric_of_isDigit (hfraction c hc)
  rw [Guarded.byteLength_of_isNumeric hnumeric, List.length_append, List.length_cons]
  omega

/-- Two points in a run of digits and points, or a point alone, are the errors of a number. -/
theorem numberValue_eq_error_iff {run : List Char} (hrun : ∀ c ∈ run, isNumeric c = true)
    (position : Nat) {cause : Error} :
    numberValue position run = .error cause ↔
      (∃ whole fraction more, run = whole ++ '.' :: (fraction ++ '.' :: more) ∧
        (∀ c ∈ whole, c.isDigit = true) ∧ (∀ c ∈ fraction, c.isDigit = true) ∧
        cause = .malformedNumber (position + byteLength (whole ++ '.' :: fraction))) ∨
      run = ['.'] ∧ cause = .malformedNumber position := by
  constructor
  · intro h
    obtain ⟨whole, others, rfl, hwhole, rfl | ⟨more, rfl⟩⟩ := Guarded.exists_digits_append hrun
    · rw [List.append_nil, numberValue_of_digits hwhole] at h
      cases h
    · have hmore : ∀ c ∈ more, isNumeric c = true :=
        fun c hc => hrun c (List.mem_append_right _ (List.mem_cons_of_mem _ hc))
      obtain ⟨fraction, others, rfl, hfraction, hothers⟩ := Guarded.exists_digits_append hmore
      rw [Guarded.numberValue_decimal hwhole hfraction hothers] at h
      rcases hothers with rfl | ⟨more, rfl⟩
      · rw [if_neg (fun h => h rfl)] at h
        split at h
        · rename_i hempty
          obtain ⟨rfl, rfl⟩ := hempty
          cases h
          exact Or.inr ⟨rfl, rfl⟩
        · cases h
      · rw [if_pos (List.cons_ne_nil _ _)] at h
        cases h
        refine Or.inl ⟨whole, fraction, more, rfl, hwhole, hfraction, ?_⟩
        rw [byteLength_decimal hwhole hfraction, ← Nat.add_assoc, ← Nat.add_assoc]
  · rintro (⟨whole, fraction, more, rfl, hwhole, hfraction, rfl⟩ | ⟨rfl, rfl⟩)
    · rw [Guarded.numberValue_decimal hwhole hfraction (.inr ⟨more, rfl⟩),
        if_pos (List.cons_ne_nil _ _), byteLength_decimal hwhole hfraction, ← Nat.add_assoc,
        ← Nat.add_assoc]
    · rfl

namespace Vocabulary

/-- The first text is cut into the pieces if the other one follows it. -/
inductive IsCutBefore (vocabulary : Vocabulary) (text : List Char) :
    List Char → List Piece → Prop
  | nil : IsCutBefore vocabulary text [] []
  | cons {rest : List Char} {piece : Piece} {pieces : List Piece}
      (hpiece : vocabulary.IsPiece (rest ++ text) piece)
      (hrest : IsCutBefore vocabulary text rest pieces) :
      IsCutBefore vocabulary text (piece.text ++ rest) (piece :: pieces)

/-- Neither a constant nor the variable begins the text. -/
structure BeginsNothing (vocabulary : Vocabulary) (text : List Char) : Prop where
  no_constant : ∀ constant ∈ vocabulary.constants, ¬ constant.name.toList <+: text
  not_symbol : text.head? ≠ some vocabulary.symbol

/-- The longest run of letters and digits that a text begins with. It is empty exactly if the text
begins with another character. -/
structure IsReportedName (c : Char) (rest name : List Char) : Prop where
  begins : name <+: c :: rest
  alphanumeric : ∀ d ∈ name, Text.isAlphanumeric d = true
  longest : ∀ others, c :: rest = name ++ others →
    ∀ d ∈ others.head?, Text.isAlphanumeric d = false
  empty_iff : name = [] ↔ Text.isAlphanumeric c = false

/-- What is wrong with a text at a position, where no piece begins. -/
inductive IsFault (vocabulary : Vocabulary) (position : Nat) : List Char → Error → Prop
  | character {c : Char} {rest : List Char} (hfirst : BeginsName c)
      (hnothing : vocabulary.BeginsNothing (c :: rest))
      (hforeign : ∀ constant ∈ vocabulary.constants, constant.name.toList.head? ≠ some c) :
      IsFault vocabulary position (c :: rest) (.unknownCharacter c position)
  | identifier {c : Char} {rest name : List Char} (hfirst : BeginsName c)
      (hnothing : vocabulary.BeginsNothing (c :: rest))
      (hknown : ∃ constant ∈ vocabulary.constants, constant.name.toList.head? = some c)
      (hname : IsReportedName c rest name) :
      IsFault vocabulary position (c :: rest) (.unknownIdentifier (String.ofList name) position)
  | secondPoint {whole fraction rest : List Char} (hwhole : ∀ c ∈ whole, c.isDigit = true)
      (hfraction : ∀ c ∈ fraction, c.isDigit = true) :
      IsFault vocabulary position (whole ++ '.' :: (fraction ++ '.' :: rest))
        (.malformedNumber (position + byteLength (whole ++ '.' :: fraction)))
  | noDigits {rest : List Char} (hends : EndsNumber rest) :
      IsFault vocabulary position ('.' :: rest) (.malformedNumber position)

variable {vocabulary : Vocabulary} {text before rest name : List Char} {piece : Piece}
  {pieces : List Piece} {c : Char} {cause : Error}

/-- A piece stays one if the text behind it is cut short. -/
theorem IsPiece.of_append (h : vocabulary.IsPiece (rest ++ text) piece) :
    vocabulary.IsPiece rest piece := by
  cases h with
  | space => exact .space
  | number hliteral hends => exact .number hliteral hends.of_append
  | operator hoperator => exact .operator hoperator
  | @constant constant hfirst hlongest =>
      refine .constant hfirst ⟨hlongest.mem, List.prefix_append _ _, fun c hc hbegins => ?_⟩
      apply hlongest.longest c hc
      rw [← List.append_assoc]
      exact hbegins.trans (List.prefix_append _ _)
  | symbol hfirst hnone =>
      refine .symbol hfirst fun c hc hbegins => hnone c hc ?_
      rw [← List.cons_append]
      exact hbegins.trans (List.prefix_append _ _)

theorem IsCutBefore.isCut (h : vocabulary.IsCutBefore text before pieces) :
    vocabulary.IsCut before pieces := by
  induction h with
  | nil => exact .nil
  | cons hpiece _ ih => exact .cons hpiece.of_append ih

/-- The scanner finds the pieces of the first text, and goes on with the other one. -/
theorem tokensFrom_of_isCutBefore (h : vocabulary.IsCutBefore text before pieces)
    (position : Nat) :
    vocabulary.tokensFrom position (before ++ text) =
      (vocabulary.tokensFrom (position + byteLength before) text).map
        (placedTokens position pieces ++ ·) := by
  induction h generalizing position with
  | nil =>
      change vocabulary.tokensFrom position text =
        (vocabulary.tokensFrom position text).map (fun tokens => tokens)
      cases vocabulary.tokensFrom position text <;> rfl
  | @cons rest piece pieces hpiece hrest ih =>
      obtain ⟨c, following, htext, hlexeme⟩ := lexeme_of_isPiece hpiece
      rw [htext, List.cons_append, List.cons_append, List.append_assoc,
        tokensFrom_of_lexeme (hlexeme position), List.take_left, List.drop_left, ih, placedTokens,
        utf8ByteSize_ofList, htext, Nat.add_assoc, ← byteLength_append, List.cons_append]
      cases vocabulary.tokensFrom (position + byteLength (c :: (following ++ rest))) text with
      | error cause => rfl
      | ok tokens => exact congrArg Except.ok (List.append_assoc _ _ _).symm

/-- Where the scanner fails, it has cut the text before. -/
theorem exists_isCutBefore_of_tokensFrom {position : Nat} {input : List Char}
    (h : vocabulary.tokensFrom position input = .error cause) :
    ∃ before c rest pieces, input = before ++ c :: rest ∧
      vocabulary.IsCutBefore (c :: rest) before pieces ∧
      vocabulary.lexeme (position + byteLength before) c rest = .error cause := by
  induction hlength : input.length using Nat.strongRecOn generalizing position input with
  | ind length ih =>
      cases input with
      | nil =>
          rw [tokensFrom] at h
          cases h
      | cons c rest =>
          cases hnext : vocabulary.lexeme position c rest with
          | error other =>
              rw [tokensFrom, hnext] at h
              cases h
              exact ⟨[], c, rest, [], rfl, .nil, hnext⟩
          | ok next =>
              rw [tokensFrom_of_lexeme hnext] at h
              have hshorter : (rest.drop next.following).length < length := by
                rw [← hlength, List.length_drop, List.length_cons]
                omega
              obtain ⟨before, d, others, pieces, hsplit, hcut, hfails⟩ :=
                ih _ hshorter (eq_error_of_map h) rfl
              have hpiece := isPiece_of_lexeme hnext
              rw [hsplit] at hpiece
              refine ⟨c :: rest.take next.following ++ before, d, others, _, ?_, .cons hpiece hcut,
                ?_⟩
              · rw [List.append_assoc, ← hsplit, List.cons_append, List.take_append_drop]
              · rwa [byteLength_append, ← Nat.add_assoc]

theorem isReportedName_iff :
    IsReportedName c rest name ↔ name = (c :: rest).takeWhile Text.isAlphanumeric := by
  constructor
  · intro h
    obtain ⟨others, hsplit⟩ := h.begins
    rw [← hsplit, List.takeWhile_append_of_pos h.alphanumeric]
    cases others with
    | nil => rw [List.takeWhile_nil, List.append_nil]
    | cons d others =>
        have hd := h.longest (d :: others) hsplit.symm d rfl
        rw [List.takeWhile_cons_of_neg (by simp [hd]), List.append_nil]
  · rintro rfl
    refine ⟨List.takeWhile_prefix _, fun d hd => List.mem_takeWhile_imp hd, ?_, ?_⟩
    · intro others hsplit d hd
      have hdrop : (c :: rest).dropWhile Text.isAlphanumeric = others := by
        refine List.append_cancel_left (Eq.trans ?_ hsplit)
        exact List.takeWhile_append_dropWhile
      have hhead := List.head?_dropWhile_not Text.isAlphanumeric (c :: rest)
      rw [hdrop, hd] at hhead
      exact hhead
    · cases hc : Text.isAlphanumeric c <;> simp [hc]

theorem startsConstant_iff :
    vocabulary.startsConstant c = true ↔
      ∃ constant ∈ vocabulary.constants, constant.name.toList.head? = some c := by
  simp [startsConstant]

theorem IsFault.exists_cons {position : Nat} (h : vocabulary.IsFault position text cause) :
    ∃ c rest, text = c :: rest := by
  cases h with
  | character | identifier | noDigits => exact ⟨_, _, rfl⟩
  | @secondPoint whole fraction rest => cases whole <;> exact ⟨_, _, rfl⟩

/-- A run of digits and points is read as a number, with what is wrong with it. -/
theorem lexeme_of_run {run others : List Char} (hrun : ∀ d ∈ c :: run, isNumeric d = true)
    (hends : EndsNumber others) (position : Nat) :
    vocabulary.lexeme position c (run ++ others) =
      (numberValue position (c :: run)).map fun value => ⟨some (.number value), run.length⟩ := by
  rw [List.forall_mem_cons] at hrun
  rw [lexeme_of_isNumeric hrun.1, takeWhile_isNumeric_append hrun.2 hends]

theorem isFault_of_lexeme {position : Nat}
    (h : vocabulary.lexeme position c rest = .error cause) :
    vocabulary.IsFault position (c :: rest) cause := by
  rcases first_cases c with rfl | hnumeric | ⟨token, hoperator⟩ | hfirst
  · cases h
  · obtain ⟨run, others, rfl, hrun, hends⟩ := exists_numeric_append rest
    have hall : ∀ d ∈ c :: run, isNumeric d = true := List.forall_mem_cons.2 ⟨hnumeric, hrun⟩
    rw [lexeme_of_run hall hends] at h
    rcases (numberValue_eq_error_iff hall position).1 (eq_error_of_map h) with
      ⟨whole, fraction, more, hsplit, hwhole, hfraction, rfl⟩ | ⟨hpoint, rfl⟩
    · have htext : c :: (run ++ others) =
          whole ++ '.' :: (fraction ++ '.' :: (more ++ others)) := by
        rw [← List.cons_append, hsplit]
        simp
      rw [htext]
      exact .secondPoint hwhole hfraction
    · obtain ⟨rfl, rfl⟩ := List.cons_eq_cons.1 hpoint
      exact .noDigits hends
  · rw [lexeme_punctuation (punctuation?_eq_some_iff.2 hoperator)] at h
    cases h
  · cases hconstant : vocabulary.longestConstant? (c :: rest) with
    | some constant =>
        rw [lexeme_of_isLongest hfirst (longestConstant?_eq_some_iff.1 hconstant)] at h
        cases h
    | none =>
        have hnone := longestConstant?_eq_none_iff.1 hconstant
        rw [lexeme_of_no_constant hfirst hnone] at h
        split at h
        · cases h
        · rename_i hsymbol
          have hnothing : vocabulary.BeginsNothing (c :: rest) :=
            ⟨hnone, fun hhead => hsymbol (Option.some.inj hhead)⟩
          split at h
          · rename_i hstarts
            cases h
            exact .identifier hfirst hnothing (startsConstant_iff.1 hstarts)
              (isReportedName_iff.2 rfl)
          · rename_i hstarts
            cases h
            refine .character hfirst hnothing fun constant hconstant hhead => hstarts ?_
            exact startsConstant_iff.2 ⟨constant, hconstant, hhead⟩

theorem lexeme_of_isFault {position : Nat}
    (h : vocabulary.IsFault position (c :: rest) cause) :
    vocabulary.lexeme position c rest = .error cause := by
  generalize htext : c :: rest = text at h
  cases h with
  | character hfirst hnothing hforeign =>
      cases htext
      have hstarts : vocabulary.startsConstant c ≠ true := by
        rw [Ne, startsConstant_iff]
        rintro ⟨constant, hconstant, hhead⟩
        exact hforeign constant hconstant hhead
      rw [lexeme_of_no_constant hfirst hnothing.no_constant,
        if_neg fun hsymbol => hnothing.not_symbol (congrArg some hsymbol), if_neg hstarts]
  | identifier hfirst hnothing hknown hname =>
      cases htext
      rw [lexeme_of_no_constant hfirst hnothing.no_constant,
        if_neg fun hsymbol => hnothing.not_symbol (congrArg some hsymbol),
        if_pos (startsConstant_iff.2 hknown), ← isReportedName_iff.1 hname]
  | @secondPoint whole fraction others hwhole hfraction =>
      obtain ⟨more, last, rfl, hmore, hends⟩ := exists_numeric_append others
      have hrun := isNumeric_decimal hwhole (isNumeric_decimal hfraction hmore)
      have hvalue := (numberValue_eq_error_iff hrun position).2
        (Or.inl ⟨whole, fraction, more, rfl, hwhole, hfraction, rfl⟩)
      have hsplit : whole ++ '.' :: (fraction ++ '.' :: (more ++ last)) =
          (whole ++ '.' :: (fraction ++ '.' :: more)) ++ last := by simp
      rw [hsplit] at htext
      generalize whole ++ '.' :: (fraction ++ '.' :: more) = run at hrun hvalue htext
      cases run with
      | nil => cases hvalue
      | cons d run =>
          rw [List.cons_append] at htext
          obtain ⟨rfl, rfl⟩ := List.cons_eq_cons.1 htext
          rw [lexeme_of_run hrun hends, hvalue]
          rfl
  | noDigits hends =>
      cases htext
      have hrun : ∀ d ∈ ['.'], isNumeric d = true := List.forall_mem_singleton.2 rfl
      exact lexeme_of_run hrun hends position

/-- The scanner fails exactly if the text goes on with a fault behind what can be cut. The text
before has tokens of its own, and the fault's place is the byte where it begins. -/
theorem tokens_eq_error_iff_isFault (vocabulary : Vocabulary) (input : List Char) (cause : Error) :
    vocabulary.tokens input = .error cause ↔
      ∃ before text pieces, input = before ++ text ∧
        vocabulary.IsCutBefore text before pieces ∧
        vocabulary.tokens before = .ok (placedTokens 0 pieces) ∧
        vocabulary.IsFault (byteLength before) text cause := by
  constructor
  · intro h
    obtain ⟨before, c, rest, pieces, hinput, hcut, hfails⟩ := exists_isCutBefore_of_tokensFrom h
    rw [Nat.zero_add] at hfails
    exact ⟨before, c :: rest, pieces, hinput, hcut, tokensFrom_of_isCut hcut.isCut 0,
      isFault_of_lexeme hfails⟩
  · rintro ⟨before, text, pieces, rfl, hcut, _, hfault⟩
    obtain ⟨c, rest, rfl⟩ := hfault.exists_cons
    rw [tokens, tokensFrom_of_isCutBefore hcut, Nat.zero_add, tokensFrom,
      lexeme_of_isFault hfault]
    rfl

/-- A constant with the name `_a` makes the underscore the beginning of a name, which is neither a
letter nor a digit: the name that is reported is empty. -/
theorem not_forall_reported_name_ne_empty :
    ¬ ∀ (vocabulary : Vocabulary) (input : List Char) (name : String) (position : Nat),
      vocabulary.tokens input = .error (.unknownIdentifier name position) → name ≠ "" := by
  intro h
  have htokens : (standard.withConstant "_a" 5).tokens ['_'] =
      .error (.unknownIdentifier "" 0) := by
    decide +kernel
  exact h _ _ _ _ htokens rfl

end Vocabulary

end ExactAlgebra
