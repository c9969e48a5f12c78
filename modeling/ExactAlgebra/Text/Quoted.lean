import ExactAlgebra.Text.Alphanumeric
import ExactAlgebra.Text.Printable
import ExactAlgebra.Text.Combining

/-!
Quoted characters and strings, as messages show them. The quote in use and the backslash are
escaped, tab, line feed, carriage return and NUL have short forms, and what has no visible form of
its own is written as its code point in hexadecimal.
-/

namespace ExactAlgebra.Text

/-- The escape of a code point: backslash, `u`, and lowercase hexadecimal digits in braces. -/
def codePointEscape (c : Char) : List Char :=
  ['\\', 'u', '\x7b'] ++ Nat.toDigits 16 c.toNat ++ ['\x7d']

/-- One character between quotes of the given kind. -/
def escaped (quote c : Char) : List Char :=
  if c = quote ∨ c = '\\' then ['\\', c]
  else if c = '\t' then ['\\', 't']
  else if c = '\n' then ['\\', 'n']
  else if c = '\r' then ['\\', 'r']
  else if c = '\x00' then ['\\', '0']
  else if isCombining c || !isPrintable c then codePointEscape c
  else [c]

def quotedChar (c : Char) : String :=
  String.ofList (['\x27'] ++ escaped '\x27' c ++ ['\x27'])

def quotedString (s : String) : String :=
  String.ofList (['\x22'] ++ s.toList.flatMap (escaped '\x22') ++ ['\x22'])

end ExactAlgebra.Text
