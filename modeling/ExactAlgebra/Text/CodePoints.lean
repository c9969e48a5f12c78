/-!
Sets of code points, written as the ascending list of the places where membership changes. A code
point is in the set when an odd number of changes lie at or below it.
-/

namespace ExactAlgebra.Text

/-- Membership of a code point in the set with the given ascending list of changes. -/
def inSet : List Nat → Nat → Bool
  | [], _ => false
  | change :: rest, code => if code < change then false else !inSet rest code

end ExactAlgebra.Text
