import ExactAlgebra.Terms.Basic

/-!
Reading the stored terms of a sum from both ends. A walk holds the terms that are still to come, by
ascending exponent; each is read once, from whichever end reaches it first.
-/

namespace ExactAlgebra.Terms

/-- The terms that are still to come. -/
structure Walk where
  remaining : List Term

def walk (p : Terms) : Walk := ⟨p.ascending⟩

namespace Walk

def size (w : Walk) : Nat := w.remaining.length

/-- The term of the smallest exponent, and the walk without it. -/
def next (w : Walk) : Option Term × Walk := (w.remaining.head?, ⟨w.remaining.tail⟩)

/-- The term of the largest exponent, and the walk without it. -/
def nextBack (w : Walk) : Option Term × Walk := (w.remaining.getLast?, ⟨w.remaining.dropLast⟩)

end Walk

end ExactAlgebra.Terms
