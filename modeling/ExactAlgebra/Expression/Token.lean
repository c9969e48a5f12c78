import ExactAlgebra.Expression.Vocabulary

/-!
The tokens of an expression. A lexeme is found by its first character: a digit or a point begins
the longest run of digits and points, operators and parentheses stand alone, a space is skipped,
and any other character begins the longest constant name that fits or else is the variable.
Positions count the bytes of the text in UTF-8.
-/

namespace ExactAlgebra

/-- What the parts of an expression stand for. -/
inductive Token where
  | number (value : Rat)
  | constant (value : Rat)
  | symbol
  | plus
  | minus
  | star
  | percent
  | caret
  | opening
  | closing
  deriving DecidableEq

/-- Tokens that are multiplied with an operand right before them. -/
def Token.beginsOperand : Token → Bool
  | .number _ | .constant _ | .symbol | .opening => true
  | _ => false

/-- A token and the position of its first character. -/
structure PlacedToken where
  token : Token
  position : Nat
  deriving DecidableEq

/-- What begins at some place of the text: a token or a skipped space, and the number of characters
that belong to it after the first. -/
structure Lexeme where
  token : Option Token
  following : Nat
  deriving DecidableEq

/-- The number of bytes of a text in UTF-8. -/
def byteLength : List Char → Nat
  | [] => 0
  | c :: rest => c.utf8Size + byteLength rest

/-- Characters of number literals. -/
def isNumeric (c : Char) : Bool := c.isDigit || c == '.'

def punctuation? : Char → Option Token
  | '+' => some .plus
  | '-' => some .minus
  | '*' => some .star
  | '%' => some .percent
  | '^' => some .caret
  | '(' => some .opening
  | ')' => some .closing
  | _ => none

/-- The value of the digits before and after the decimal point. -/
def decimalValue (whole fraction : List Char) : Rat :=
  mkRat (Nat.ofDigitChars 10 (whole ++ fraction) 0) (Nat.pow 10 fraction.length)

/-- The value of a run of digits and points at a position: at most one point, and at least one
digit. A second point is the fault of the place where it stands, a lack of digits that of the
whole run. -/
def numberValue (position : Nat) (run : List Char) : Except Error Rat :=
  let whole := run.takeWhile Char.isDigit
  match run.dropWhile Char.isDigit with
  | [] => .ok (decimalValue whole [])
  | _ :: rest =>
      let fraction := rest.takeWhile Char.isDigit
      if rest.dropWhile Char.isDigit ≠ [] then
        .error (.malformedNumber (position + whole.length + 1 + fraction.length))
      else if whole = [] ∧ fraction = [] then .error (.malformedNumber position)
      else .ok (decimalValue whole fraction)

/-- The lexeme that begins with the first of the given characters. -/
def Vocabulary.lexeme (vocabulary : Vocabulary) (position : Nat) (c : Char) (rest : List Char) :
    Except Error Lexeme :=
  if c = ' ' then .ok ⟨none, 0⟩
  else if isNumeric c then
    let run := rest.takeWhile isNumeric
    (numberValue position (c :: run)).map fun value => ⟨some (.number value), run.length⟩
  else
    match punctuation? c with
    | some token => .ok ⟨some token, 0⟩
    | none =>
        match vocabulary.longestConstant? (c :: rest) with
        | some constant => .ok ⟨some (.constant constant.value), constant.name.length - 1⟩
        | none =>
            if c = vocabulary.symbol then .ok ⟨some .symbol, 0⟩
            else if vocabulary.startsConstant c then
              let name := (c :: rest).takeWhile Text.isAlphanumeric
              .error (.unknownIdentifier (String.ofList name) position)
            else .error (.unknownCharacter c position)

/-- The tokens of a text that begins at a position. -/
def Vocabulary.tokensFrom (vocabulary : Vocabulary) (position : Nat) :
    List Char → Except Error (List PlacedToken)
  | [] => .ok []
  | c :: rest => do
      let next ← vocabulary.lexeme position c rest
      let width := byteLength (c :: rest.take next.following)
      let tokens ← vocabulary.tokensFrom (position + width) (rest.drop next.following)
      match next.token with
      | none => return tokens
      | some token => return ⟨token, position⟩ :: tokens
termination_by input => input.length
decreasing_by
  simp only [List.length_drop, List.length_cons]
  omega

def Vocabulary.tokens (vocabulary : Vocabulary) (input : List Char) :
    Except Error (List PlacedToken) :=
  vocabulary.tokensFrom 0 input

end ExactAlgebra
