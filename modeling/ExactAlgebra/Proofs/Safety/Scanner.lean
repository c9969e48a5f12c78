import ExactAlgebra.Proofs.Expression.Binding
import ExactAlgebra.Proofs.Safety.Guarded

/-!
Scanning by byte positions. The guarded scanner looks at the text from its position on, and stops at
a fault if the position is no boundary between characters, or if it has not moved on. What was
scanned before a position is a list of characters that has as many bytes, and so the scanner walks
along the characters of the text.
-/

namespace ExactAlgebra.Guarded

/-- The text from a position on, if it is a boundary between characters. -/
def restAt : List Char → Nat → Option (List Char)
  | [], position => if position = 0 then some [] else none
  | c :: rest, position =>
      if position = 0 then some (c :: rest)
      else if c.utf8Size ≤ position then restAt rest (position - c.utf8Size)
      else none

/-- Behind the characters before a position comes the rest. -/
theorem restAt_append (before rest : List Char) :
    restAt (before ++ rest) (byteLength before) = some rest := by
  induction before with
  | nil => cases rest <;> rfl
  | cons c before ih =>
      have hpos := c.utf8Size_pos
      rw [List.cons_append, restAt, byteLength, if_neg (by omega),
        if_pos (Nat.le_add_right _ _), Nat.add_sub_cancel_left]
      exact ih

theorem add_byteLength_of_restAt {input rest : List Char} {position : Nat}
    (h : restAt input position = some rest) : position + byteLength rest = byteLength input := by
  induction input generalizing position with
  | nil =>
      rw [restAt] at h
      split at h
      · cases h
        assumption
      · cases h
  | cons c input ih =>
      rw [restAt] at h
      split at h
      · rename_i hzero
        cases h
        rw [hzero, Nat.zero_add]
      · split at h
        · have hrest := ih h
          rw [byteLength]
          omega
        · cases h

theorem lt_byteLength_of_restAt {input rest : List Char} {c : Char} {position : Nat}
    (h : restAt input position = some (c :: rest)) : position < byteLength input := by
  have hbytes := add_byteLength_of_restAt h
  have hpos := c.utf8Size_pos
  rw [byteLength] at hbytes
  omega

/-- The text from the scanner's position on. -/
def slice (input : List Char) (position : Nat) : Guarded (List Char) :=
  match restAt input position with
  | none => fault .textCut
  | some rest => .ok rest

/-- The digits of a number literal before and after its point, how many of them are behind it, and
the position behind the literal. -/
def digits (input : List Char) (position : Nat) (read : List Char) (fraction : Option Nat) :
    Guarded (List Char × Option Nat × Nat) :=
  match _h : restAt input position with
  | none => fault .textCut
  | some [] => .ok (read, fraction, position)
  | some (c :: _) =>
      if c.isDigit then digits input (position + 1) (read ++ [c]) (fraction.map (· + 1))
      else if c = '.' then
        match fraction with
        | some _ => report (.malformedNumber position)
        | none => digits input (position + 1) read (some 0)
      else .ok (read, fraction, position)
termination_by byteLength input - position
decreasing_by
  all_goals
    have hlt := lt_byteLength_of_restAt _h
    omega

/-- The value of the digits of a literal, of which some are behind the point. -/
def literal (start : Nat) (read : List Char) (places : Nat) : Guarded Rat :=
  if read = [] then report (.malformedNumber start)
  else if Nat.pow 10 places = 0 then fault .zeroDenominator
  else .ok (mkRat (Nat.ofDigitChars 10 read 0) (Nat.pow 10 places))

/-- A number literal from its first character on, with the position behind it. -/
def number (input : List Char) (start : Nat) : Guarded (Rat × Nat) := do
  let (read, fraction, next) ← digits input start [] none
  let value ← literal start read (fraction.getD 0)
  return (value, next)

/-- A constant or the variable, with the position behind a constant. -/
def identifier (vocabulary : Vocabulary) (input : List Char) (position : Nat) (c : Char) :
    Guarded (Token × Nat) := do
  let text ← slice input position
  match vocabulary.longestConstant? text with
  | some constant =>
      return (.constant constant.value, position + byteLength constant.name.toList)
  | none =>
      if c = vocabulary.symbol then return (.symbol, position)
      else if vocabulary.startsConstant c then do
        let text ← slice input position
        report (.unknownIdentifier (String.ofList (text.takeWhile Text.isAlphanumeric)) position)
      else report (.unknownCharacter c position)

/-- Moves on by the character if the scanner has not moved on yet. -/
def advance (position next : Nat) (c : Char) : Nat :=
  if next = position then position + c.utf8Size else next

/-- What begins with a character, and the position behind it. -/
def scanOne (vocabulary : Vocabulary) (input : List Char) (position : Nat) (c : Char) :
    Guarded (Option Token × Nat) :=
  if c = ' ' then .ok (none, position + 1)
  else if isNumeric c then do
    let (value, next) ← number input position
    return (some (.number value), next)
  else
    match punctuation? c with
    | some token => .ok (some token, advance position position c)
    | none => do
        let (token, next) ← identifier vocabulary input position c
        return (some token, advance position next c)

def tokensFrom (vocabulary : Vocabulary) (input : List Char) (position : Nat) :
    Guarded (List PlacedToken) :=
  match _h : restAt input position with
  | none => fault .textCut
  | some [] => .ok []
  | some (c :: _) => do
      let (token, next) ← scanOne vocabulary input position c
      if _hnext : position < next then do
        let tokens ← tokensFrom vocabulary input next
        return token.toList.map (⟨·, position⟩) ++ tokens
      else fault .noProgress
termination_by byteLength input - position
decreasing_by
  have hlt := lt_byteLength_of_restAt _h
  omega

/-- Digits and points take one byte each. -/
theorem utf8Size_of_isNumeric {c : Char} (h : isNumeric c = true) : c.utf8Size = 1 := by
  rw [Char.utf8Size_eq_one_iff]
  rw [isNumeric, Bool.or_eq_true] at h
  rcases h with h | h
  · have hdigit := (Char.isDigit_iff_toNat.1 h).2
    have hnine : '9'.toNat = 57 := rfl
    rw [UInt32.le_iff_toNat_le]
    change c.toNat ≤ 127
    omega
  · rw [beq_iff_eq.1 h]
    decide

theorem byteLength_of_isNumeric {run : List Char} (h : ∀ c ∈ run, isNumeric c = true) :
    byteLength run = run.length := by
  induction run with
  | nil => rfl
  | cons c run ih =>
      rw [List.forall_mem_cons] at h
      rw [byteLength, utf8Size_of_isNumeric h.1, ih h.2, List.length_cons, Nat.add_comm]

section Digits

variable {before rest read : List Char} {fraction : Option Nat}

/-- What happens to the next character of a text. -/
theorem digits_cons (c : Char) :
    digits (before ++ c :: rest) (byteLength before) read fraction =
      if c.isDigit then
        digits (before ++ c :: rest) (byteLength before + 1) (read ++ [c]) (fraction.map (· + 1))
      else if c = '.' then
        match fraction with
        | some _ => report (.malformedNumber (byteLength before))
        | none => digits (before ++ c :: rest) (byteLength before + 1) read (some 0)
      else .ok (read, fraction, byteLength before) := by
  conv_lhs => rw [digits.eq_def]
  split
  all_goals
    rename_i h
    rw [restAt_append] at h
    cases h
  rfl

theorem byteLength_append_numeric {c : Char} (h : isNumeric c = true) (before : List Char) :
    byteLength (before ++ [c]) = byteLength before + 1 := by
  rw [byteLength_append, byteLength, byteLength, utf8Size_of_isNumeric h]

/-- Digits are read, wherever they stand. -/
theorem digits_run {run : List Char} (hrun : ∀ c ∈ run, c.isDigit = true) :
    digits (before ++ (run ++ rest)) (byteLength before) read fraction =
      digits (before ++ run ++ rest) (byteLength (before ++ run)) (read ++ run)
        (fraction.map (· + run.length)) := by
  induction run generalizing before read fraction with
  | nil => simp
  | cons c run ih =>
      rw [List.forall_mem_cons] at hrun
      obtain ⟨hc, hrest⟩ := hrun
      have hnext : digits (before ++ [c] ++ (run ++ rest)) (byteLength (before ++ [c]))
          (read ++ [c]) (fraction.map (· + 1)) = _ := ih hrest
      rw [byteLength_append_numeric (isNumeric_of_isDigit hc)] at hnext
      rw [List.cons_append, digits_cons, if_pos hc]
      simpa [Option.map_map, Function.comp_def, Nat.add_assoc, Nat.add_comm 1] using hnext

theorem digits_point :
    digits (before ++ '.' :: rest) (byteLength before) read none =
      digits (before ++ ['.'] ++ rest) (byteLength (before ++ ['.'])) read (some 0) := by
  rw [digits_cons, if_neg (by decide), if_pos rfl, byteLength_append_numeric (by decide),
    List.append_assoc]
  rfl

theorem digits_second_point (n : Nat) :
    digits (before ++ '.' :: rest) (byteLength before) read (some n) =
      report (.malformedNumber (byteLength before)) := by
  rw [digits_cons, if_neg (by decide), if_pos rfl]

theorem digits_end (hends : EndsNumber rest) :
    digits (before ++ rest) (byteLength before) read fraction =
      .ok (read, fraction, byteLength before) := by
  cases rest with
  | nil =>
      rw [digits.eq_def, restAt_append]
  | cons c rest =>
      have hc := hends c rfl
      rw [isNumeric, Bool.or_eq_false_iff, beq_eq_false_iff_ne] at hc
      rw [digits_cons, if_neg (by rw [hc.1]; decide), if_neg hc.2]

/-- Digits on both sides of a point are read. -/
theorem digits_decimal {whole fraction : List Char} (hwhole : ∀ c ∈ whole, c.isDigit = true)
    (hfraction : ∀ c ∈ fraction, c.isDigit = true) :
    digits (before ++ (whole ++ '.' :: (fraction ++ rest))) (byteLength before) [] none =
      digits (before ++ whole ++ ['.'] ++ fraction ++ rest)
        (byteLength (before ++ whole ++ ['.'] ++ fraction)) (whole ++ fraction)
        (some fraction.length) := by
  rw [digits_run hwhole, Option.map_none, digits_point, digits_run hfraction, Option.map_some,
    Nat.zero_add, List.nil_append]

end Digits

/-- What is left of a number literal behind its digits begins with a point. -/
theorem eq_point_of_dropWhile {run more : List Char} {c : Char}
    (hrun : ∀ d ∈ run, isNumeric d = true) (h : run.dropWhile Char.isDigit = c :: more) :
    c = '.' := by
  have hmem : c ∈ run := (List.dropWhile_sublist _).mem (h ▸ List.mem_cons_self)
  have hdigit := List.head?_dropWhile_not Char.isDigit run
  rw [h] at hdigit
  have hnumeric := hrun c hmem
  rw [isNumeric, Bool.or_eq_true, beq_iff_eq] at hnumeric
  rcases hnumeric with hnumeric | hnumeric
  · rw [List.head?_cons] at hdigit
    exact absurd hnumeric (by simp [hdigit])
  · exact hnumeric

/-- A number literal begins with digits, behind which there is nothing or a point. -/
theorem exists_digits_append {run : List Char} (hrun : ∀ c ∈ run, isNumeric c = true) :
    ∃ whole others, run = whole ++ others ∧ (∀ c ∈ whole, c.isDigit = true) ∧
      (others = [] ∨ ∃ more, others = '.' :: more) := by
  refine ⟨run.takeWhile Char.isDigit, run.dropWhile Char.isDigit,
    List.takeWhile_append_dropWhile.symm, fun c hc => List.mem_takeWhile_imp hc, ?_⟩
  cases hothers : run.dropWhile Char.isDigit with
  | nil => exact .inl rfl
  | cons c more => exact .inr ⟨more, by rw [eq_point_of_dropWhile hrun hothers]⟩

/-- The value of a number literal with a point, from the digits around it. -/
theorem numberValue_decimal {whole fraction others : List Char}
    (hwhole : ∀ c ∈ whole, c.isDigit = true) (hfraction : ∀ c ∈ fraction, c.isDigit = true)
    (hothers : others = [] ∨ ∃ more, others = '.' :: more) (position : Nat) :
    numberValue position (whole ++ '.' :: (fraction ++ others)) =
      if others ≠ [] then
        .error (.malformedNumber (position + whole.length + 1 + fraction.length))
      else if whole = [] ∧ fraction = [] then .error (.malformedNumber position)
      else .ok (decimalValue whole fraction) := by
  have hpoint : '.'.isDigit = false := by decide
  have hothers : others.takeWhile Char.isDigit = [] ∧ others.dropWhile Char.isDigit = others := by
    rcases hothers with rfl | ⟨more, rfl⟩
    · exact ⟨rfl, rfl⟩
    · simp [hpoint]
  rw [numberValue, List.takeWhile_append_of_pos hwhole, List.dropWhile_append_of_pos hwhole,
    List.takeWhile_cons_of_neg (by simp [hpoint]), List.dropWhile_cons_of_neg (by simp [hpoint]),
    List.append_nil]
  simp only
  rw [List.takeWhile_append_of_pos hfraction, List.dropWhile_append_of_pos hfraction, hothers.1,
    hothers.2, List.append_nil]

/-- The denominator of a literal is a power of ten, and so not zero. -/
theorem literal_eq (start : Nat) (whole fraction : List Char) :
    literal start (whole ++ fraction) fraction.length =
      if whole = [] ∧ fraction = [] then report (.malformedNumber start)
      else .ok (decimalValue whole fraction) := by
  have hpow : Nat.pow 10 fraction.length ≠ 0 := (Nat.pow_pos (by decide)).ne'
  simp only [literal, if_neg hpow, List.append_eq_nil_iff]
  rfl

/-- Reading a number literal character by character gives the value of the whole run. -/
theorem number_eq {before run rest : List Char} (hne : run ≠ [])
    (hrun : ∀ c ∈ run, isNumeric c = true) (hends : EndsNumber rest) :
    number (before ++ (run ++ rest)) (byteLength before) =
      unguarded ((numberValue (byteLength before) run).map fun value =>
        (value, byteLength (before ++ run))) := by
  have hdigits : ∀ {l : List Char}, (∀ c ∈ l, c.isDigit = true) → byteLength l = l.length :=
    fun h => byteLength_of_isNumeric fun c hc => isNumeric_of_isDigit (h c hc)
  obtain ⟨whole, others, rfl, hwhole, rfl | ⟨more, rfl⟩⟩ := exists_digits_append hrun
  · rw [List.append_nil] at hne ⊢
    have hvalue := literal_eq (byteLength before) whole []
    rw [if_neg (fun hempty => hne hempty.1), List.append_nil, List.length_nil] at hvalue
    rw [number, digits_run hwhole, digits_end hends, numberValue_of_digits hwhole]
    change (literal (byteLength before) whole 0 >>= _) = _
    rw [hvalue]
    rfl
  · have hmore : ∀ c ∈ more, isNumeric c = true :=
      fun c hc => hrun c (List.mem_append_right _ (List.mem_cons_of_mem _ hc))
    obtain ⟨fraction, others, rfl, hfraction, hothers⟩ := exists_digits_append hmore
    rw [number, numberValue_decimal hwhole hfraction hothers, List.append_assoc,
      List.cons_append, List.append_assoc, digits_decimal hwhole hfraction]
    rcases hothers with rfl | ⟨more, rfl⟩
    · have hread : before ++ (whole ++ '.' :: (fraction ++ [])) =
          before ++ whole ++ ['.'] ++ fraction := by simp
      rw [List.nil_append, digits_end hends, if_neg (fun h => h rfl), hread]
      change (literal (byteLength before) (whole ++ fraction) fraction.length >>= _) = _
      rw [literal_eq]
      split <;> rfl
    · rw [List.cons_append, digits_second_point, if_pos (List.cons_ne_nil _ _), byteLength_append,
        byteLength_append, byteLength_append, hdigits hwhole, hdigits hfraction]
      rfl

theorem endsNumber_dropWhile (rest : List Char) : EndsNumber (rest.dropWhile isNumeric) := by
  intro c hc
  have hnot := List.head?_dropWhile_not isNumeric rest
  rw [Option.mem_def.1 hc] at hnot
  exact hnot

/-- A number literal ends where its run of digits and points does. -/
theorem scanOne_number (vocabulary : Vocabulary) {before rest : List Char} {c : Char}
    (hspace : c ≠ ' ') (hc : isNumeric c = true) :
    scanOne vocabulary (before ++ c :: rest) (byteLength before) c =
      unguarded ((numberValue (byteLength before) (c :: rest.takeWhile isNumeric)).map
        fun value => (some (.number value),
          byteLength (before ++ c :: rest.takeWhile isNumeric))) := by
  have hrun : ∀ d ∈ c :: rest.takeWhile isNumeric, isNumeric d = true :=
    List.forall_mem_cons.2 ⟨hc, fun d hd => List.mem_takeWhile_imp hd⟩
  have hnumber := @number_eq before _ _ (List.cons_ne_nil _ _) hrun (endsNumber_dropWhile rest)
  rw [List.cons_append, List.takeWhile_append_dropWhile] at hnumber
  rw [scanOne, if_neg hspace, if_pos hc, hnumber]
  cases numberValue (byteLength before) (c :: rest.takeWhile isNumeric) <;> rfl

theorem advance_self (position : Nat) (c : Char) :
    advance position position c = position + c.utf8Size :=
  if_pos rfl

theorem byteLength_append_singleton (before : List Char) (c : Char) :
    byteLength (before ++ [c]) = byteLength before + c.utf8Size := by
  rw [byteLength_append, byteLength, byteLength, Nat.add_zero]

/-- A text becomes longer with each character. -/
theorem lt_byteLength_append_cons (before rest : List Char) (c : Char) :
    byteLength before < byteLength (before ++ c :: rest) := by
  have hpos := c.utf8Size_pos
  rw [byteLength_append, byteLength]
  omega

/-- A constant ends where its name does. -/
theorem cons_take_eq_name {constant : NamedConstant} {c : Char} {rest : List Char}
    (hnamed : constant.name ≠ "") (h : constant.name.toList <+: c :: rest) :
    c :: rest.take (constant.name.length - 1) = constant.name.toList := by
  have hlength : constant.name.length ≠ 0 := mt String.length_eq_zero_iff.1 hnamed
  rw [List.prefix_iff_eq_take.1 h, String.length_toList, ← List.take_succ_cons,
    Nat.sub_add_cancel (Nat.pos_of_ne_zero hlength)]

section Identifier

variable {vocabulary : Vocabulary} {before rest : List Char} {c : Char}

theorem slice_append (before rest : List Char) :
    slice (before ++ rest) (byteLength before) = .ok rest := by
  rw [slice, restAt_append]

/-- A constant moves the scanner on, since its name is not empty. -/
theorem identifier_of_constant {constant : NamedConstant}
    (h : vocabulary.longestConstant? (c :: rest) = some constant) :
    identifier vocabulary (before ++ c :: rest) (byteLength before) c =
        .ok (.constant constant.value,
          byteLength (before ++ c :: rest.take (constant.name.length - 1))) ∧
      byteLength (before ++ c :: rest.take (constant.name.length - 1)) ≠ byteLength before := by
  have hlongest := Vocabulary.longestConstant?_eq_some_iff.1 h
  have hname := cons_take_eq_name (vocabulary.named _ hlongest.mem) hlongest.begins
  refine ⟨?_, (lt_byteLength_append_cons _ _ _).ne'⟩
  rw [identifier, slice_append, hname, byteLength_append]
  simp only [Except.bind, bind, h]
  rfl

/-- Where no constant begins there is the variable or an error. -/
theorem identifier_of_no_constant (h : vocabulary.longestConstant? (c :: rest) = none) :
    identifier vocabulary (before ++ c :: rest) (byteLength before) c =
      if c = vocabulary.symbol then .ok (.symbol, byteLength before)
      else if vocabulary.startsConstant c then
        report (.unknownIdentifier
          (String.ofList ((c :: rest).takeWhile Text.isAlphanumeric)) (byteLength before))
      else report (.unknownCharacter c (byteLength before)) := by
  rw [identifier, slice_append]
  simp only [Except.bind, bind, h]
  rfl

end Identifier

/-- Scanning at a character finds its lexeme, and the position behind the characters of it. -/
theorem scanOne_eq (vocabulary : Vocabulary) (before rest : List Char) (c : Char) :
    scanOne vocabulary (before ++ c :: rest) (byteLength before) c =
      unguarded ((vocabulary.lexeme (byteLength before) c rest).map
        fun next => (next.token, byteLength (before ++ c :: rest.take next.following))) := by
  by_cases hspace : c = ' '
  · subst hspace
    rw [scanOne, if_pos rfl, Vocabulary.lexeme, if_pos rfl]
    change _ = Except.ok (none, byteLength (before ++ [' ']))
    rw [byteLength_append_singleton]
    rfl
  by_cases hnumeric : isNumeric c = true
  · have htake : rest.take (rest.takeWhile isNumeric).length = rest.takeWhile isNumeric :=
      (List.prefix_iff_eq_take.1 (List.takeWhile_prefix _)).symm
    rw [scanOne_number vocabulary hspace hnumeric, Vocabulary.lexeme, if_neg hspace,
      if_pos hnumeric]
    simp only
    cases numberValue (byteLength before) (c :: rest.takeWhile isNumeric) with
    | error cause => rfl
    | ok value =>
        change Except.ok _ = Except.ok (_, byteLength (before ++ c :: rest.take _))
        rw [htake]
  rw [scanOne, if_neg hspace, if_neg hnumeric, Vocabulary.lexeme, if_neg hspace, if_neg hnumeric]
  cases punctuation? c with
  | some token =>
      change Except.ok _ = Except.ok (some token, byteLength (before ++ [c]))
      rw [byteLength_append_singleton, advance_self]
  | none =>
      cases hconstant : vocabulary.longestConstant? (c :: rest) with
      | some constant =>
          obtain ⟨hidentifier, hmoved⟩ := @identifier_of_constant _ before _ _ _ hconstant
          rw [hidentifier]
          change Except.ok (_, advance _ _ c) =
            Except.ok (_, byteLength (before ++ c :: rest.take _))
          rw [advance, if_neg hmoved]
      | none =>
          rw [identifier_of_no_constant hconstant]
          simp only
          split
          · change Except.ok (_, advance _ _ c) = Except.ok (_, byteLength (before ++ [c]))
            rw [byteLength_append_singleton, advance_self]
          · split <;> rfl

theorem tokensFrom_cons (vocabulary : Vocabulary) (before rest : List Char) (c : Char) :
    tokensFrom vocabulary (before ++ c :: rest) (byteLength before) = (do
      let (token, next) ← scanOne vocabulary (before ++ c :: rest) (byteLength before) c
      if byteLength before < next then do
        let tokens ← tokensFrom vocabulary (before ++ c :: rest) next
        return token.toList.map (⟨·, byteLength before⟩) ++ tokens
      else fault .noProgress) := by
  conv_lhs => rw [tokensFrom.eq_def]
  split
  all_goals
    rename_i h
    rw [restAt_append] at h
    cases h
  rfl

/-- Scanning by byte positions gives the tokens of the text. -/
theorem tokensFrom_eq (vocabulary : Vocabulary) (before rest : List Char) :
    tokensFrom vocabulary (before ++ rest) (byteLength before) =
      unguarded (vocabulary.tokensFrom (byteLength before) rest) := by
  induction hlength : rest.length using Nat.strongRecOn generalizing before rest with
  | ind length ih =>
      cases rest with
      | nil => rw [tokensFrom.eq_def, restAt_append, Vocabulary.tokensFrom]; rfl
      | cons c rest =>
          rw [tokensFrom_cons, scanOne_eq]
          cases hnext : vocabulary.lexeme (byteLength before) c rest with
          | error cause =>
              rw [Vocabulary.tokensFrom, hnext]
              rfl
          | ok next =>
              have hshorter : (rest.drop next.following).length < length := by
                rw [← hlength, List.length_drop, List.length_cons]
                omega
              have hrest := ih _ hshorter (before ++ c :: rest.take next.following)
                (rest.drop next.following) rfl
              rw [List.append_assoc, List.cons_append, List.take_append_drop,
                byteLength_append] at hrest
              rw [Vocabulary.tokensFrom_of_lexeme hnext]
              change (if byteLength before < byteLength (before ++ c :: rest.take next.following)
                then _ else _) = _
              rw [if_pos (lt_byteLength_append_cons _ _ _), byteLength_append, hrest]
              cases vocabulary.tokensFrom (byteLength before + byteLength (c :: rest.take _))
                (rest.drop next.following) <;> rfl

theorem tokens_eq (vocabulary : Vocabulary) (input : List Char) :
    tokensFrom vocabulary input 0 = unguarded (vocabulary.tokens input) :=
  tokensFrom_eq vocabulary [] input

end ExactAlgebra.Guarded
