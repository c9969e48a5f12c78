import ExactAlgebra.Terms.Basic

/-!
A store of terms that changes one step at a time. It holds at most one term for each exponent, by
ascending exponent, and it is never empty: zero is the single term `0 * x^0`. A change of the
entries may leave none, or may leave the zero term beside others, and is put right at once.
-/

namespace ExactAlgebra

/-- The terms of a store by ascending exponent. -/
structure TermStore where
  entries : List Term
  deriving DecidableEq

/-- The entries with a term put at its exponent, in the place of a former one. -/
def insertEntry (t : Term) : List Term → List Term
  | [] => [t]
  | u :: rest =>
      if t.exponent < u.exponent then t :: u :: rest
      else if t.exponent = u.exponent then t :: rest
      else u :: insertEntry t rest

/-- The entries without the one at an exponent. -/
def eraseEntry (exponent : Nat) (entries : List Term) : List Term :=
  entries.filter (fun t => t.exponent != exponent)

/-- A sum of terms as a store. -/
def Terms.store (p : Terms) : TermStore := ⟨p.ascending⟩

namespace TermStore

def new : TermStore := ⟨[⟨0, 0⟩]⟩

/-- Gives an empty store its zero term, and takes zero terms out where there are several terms. -/
def canonicalize (store : TermStore) : TermStore :=
  if store.entries = [] then ⟨insertEntry ⟨0, 0⟩ []⟩
  else if 1 < store.entries.length then
    ⟨store.entries.filter (fun t => t.coefficient != 0)⟩
  else store

def get? (store : TermStore) (exponent : Nat) : Option Rat :=
  (store.entries.find? (fun t => t.exponent == exponent)).map Term.coefficient

/-- The store with a term inserted or overwritten. The coefficient zero removes the term. -/
def set (store : TermStore) (exponent : Nat) (coefficient : Rat) : TermStore :=
  if coefficient = 0 then canonicalize ⟨eraseEntry exponent store.entries⟩
  else canonicalize ⟨insertEntry ⟨coefficient, exponent⟩ store.entries⟩

/-- The store with a coefficient added to that at an exponent. -/
def addTerm (store : TermStore) (coefficient : Rat) (exponent : Nat) : TermStore :=
  if coefficient = 0 then store
  else
    match store.get? exponent with
    | none => canonicalize ⟨insertEntry ⟨coefficient, exponent⟩ store.entries⟩
    | some former =>
        if former + coefficient = 0 then canonicalize ⟨eraseEntry exponent store.entries⟩
        else canonicalize ⟨insertEntry ⟨former + coefficient, exponent⟩ store.entries⟩

/-- The coefficient at an exponent, and the store without its term. -/
def remove (store : TermStore) (exponent : Nat) : Option Rat × TermStore :=
  (store.get? exponent, canonicalize ⟨eraseEntry exponent store.entries⟩)

def clear (_ : TermStore) : TermStore := canonicalize ⟨[]⟩

def maxTerm? (store : TermStore) : Option Term := store.entries.getLast?

def degree? (store : TermStore) : Option Nat := store.maxTerm?.map Term.exponent

def size (store : TermStore) : Nat := store.entries.length

/-- The only term is a zero term. -/
def isZero (store : TermStore) : Bool :=
  store.size == 1 && store.maxTerm?.any (fun t => t.coefficient == 0)

/-- The store with a list of terms added one by one, their coefficients passed through a
function. -/
def addEach (f : Rat → Rat) (store : TermStore) (terms : List Term) : TermStore :=
  terms.foldl (fun sum t => sum.addTerm (f t.coefficient) t.exponent) store

/-- A new store of the terms with their coefficients passed through a function. -/
def mapCoefficients (f : Rat → Rat) (store : TermStore) : TermStore :=
  addEach f new store.entries

end TermStore

end ExactAlgebra
