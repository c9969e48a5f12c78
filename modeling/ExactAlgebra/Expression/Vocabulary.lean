import ExactAlgebra.SparsePolynomial.Basic
import ExactAlgebra.Rational.Binary64

/-!
What an expression is read with: the setting of the polynomial it stands for, and named constants.
Constants are kept by ascending name and have distinct, nonempty names.
-/

namespace ExactAlgebra

/-- The order of names, by the code points of their characters. It is also the order of their bytes
in UTF-8. -/
def precedes : List Char → List Char → Bool
  | _, [] => false
  | [], _ :: _ => true
  | a :: left, b :: right =>
      if a.toNat < b.toNat then true
      else if b.toNat < a.toNat then false
      else precedes left right

theorem precedes_trans {a b c : List Char} (hab : precedes a b = true)
    (hbc : precedes b c = true) : precedes a c = true := by
  fun_induction precedes a b generalizing c with
  | case1 => cases hab
  | case2 => cases c <;> simp_all [precedes]
  | case3 a left b right hlt => cases c <;> grind [precedes]
  | case4 => cases hab
  | case5 a left b right _ _ ih => cases c <;> grind [precedes]

theorem precedes_or_eq_or_precedes (a b : List Char) :
    precedes a b = true ∨ a = b ∨ precedes b a = true := by
  fun_induction precedes a b with
  | case1 a => cases a <;> simp [precedes]
  | case2 => simp
  | case3 => simp
  | case4 a left b right _ hlt => simp [precedes, hlt]
  | case5 a left b right hnlt hngt ih =>
      have heq : a = b := Char.toNat_inj.1 (by omega)
      subst heq
      simpa [precedes] using ih

/-- A name for a number. -/
structure NamedConstant where
  name : String
  value : Rat
  deriving DecidableEq

/-- One name comes before the other. -/
def NamedConstant.Before (a b : NamedConstant) : Prop :=
  precedes a.name.toList b.name.toList = true

/-- A constant put in its place, instead of a former one of its name. -/
def insertConstant (constant : NamedConstant) : List NamedConstant → List NamedConstant
  | [] => [constant]
  | other :: rest =>
      if constant.name = other.name then constant :: rest
      else if precedes constant.name.toList other.name.toList then constant :: other :: rest
      else other :: insertConstant constant rest

theorem mem_insertConstant {constant c : NamedConstant} {list : List NamedConstant}
    (h : c ∈ insertConstant constant list) : c = constant ∨ c ∈ list := by
  induction list with
  | nil => simpa [insertConstant] using h
  | cons other rest ih => grind [insertConstant]

theorem pairwise_insertConstant {list : List NamedConstant}
    (h : list.Pairwise NamedConstant.Before) (constant : NamedConstant) :
    (insertConstant constant list).Pairwise NamedConstant.Before := by
  induction list with
  | nil => simp [insertConstant]
  | cons other rest ih =>
      rw [List.pairwise_cons] at h
      rw [insertConstant]
      split
      · rename_i heq
        refine List.pairwise_cons.2 ⟨fun c hc => ?_, h.2⟩
        simpa [NamedConstant.Before, heq] using h.1 c hc
      · rename_i hne
        split
        · rename_i hlt
          refine List.pairwise_cons.2 ⟨fun c hc => ?_, List.pairwise_cons.2 h⟩
          rcases List.mem_cons.1 hc with rfl | hc
          · exact hlt
          · exact precedes_trans hlt (h.1 c hc)
        · rename_i hnlt
          refine List.pairwise_cons.2 ⟨fun c hc => ?_, ih h.2⟩
          rcases mem_insertConstant hc with rfl | hc
          · rcases precedes_or_eq_or_precedes c.name.toList other.name.toList with hlt | heq | hgt
            · exact absurd hlt hnlt
            · exact absurd (String.toList_inj.1 heq) hne
            · exact hgt
          · exact h.1 c hc

/-- The setting on top of another one, whose moduli stay where the setting has none of its own. -/
def Setting.over (setting below : Setting) : Setting where
  symbol := setting.symbol
  coefficientModulus := setting.coefficientModulus.or below.coefficientModulus
  modulusChain :=
    if setting.modulusChain.isEmpty then below.modulusChain else setting.modulusChain

/-- Nothing stays of a setting without moduli. -/
theorem Setting.over_plain (setting : Setting) (symbol : Char) :
    setting.over (.plain symbol) = setting := by
  obtain ⟨own, coefficientModulus, chain⟩ := setting
  cases coefficientModulus <;> cases chain <;> rfl

/-- The setting of the result, and the named constants by ascending name. -/
structure Vocabulary where
  setting : Setting
  constants : List NamedConstant
  ascending : constants.Pairwise NamedConstant.Before
  named : ∀ c ∈ constants, c.name ≠ ""

namespace Vocabulary

/-- The standard setting without constants. -/
def standard : Vocabulary := ⟨.standard, [], .nil, by simp⟩

def symbol (vocabulary : Vocabulary) : Char := vocabulary.setting.symbol

def withSetting (vocabulary : Vocabulary) (setting : Setting) : Vocabulary :=
  { vocabulary with setting := setting }

def withSymbol (vocabulary : Vocabulary) (symbol : Char) : Vocabulary :=
  vocabulary.withSetting { vocabulary.setting with symbol := symbol }

/-- The zero polynomial in the setting of the vocabulary. -/
def blank (vocabulary : Vocabulary) : SparsePolynomial := .zeroIn vocabulary.setting

def withCoefficientModulus (vocabulary : Vocabulary) (modulus : Rat) :
    Except Error Vocabulary :=
  (vocabulary.blank.withCoefficientModulus modulus).map fun p => vocabulary.withSetting p.setting

def withPolynomialModulus (vocabulary : Vocabulary) (modulus : SparsePolynomial) :
    Except Error Vocabulary :=
  (vocabulary.blank.withPolynomialModulus modulus).map fun p => vocabulary.withSetting p.setting

/-- The vocabulary with one more constant. An empty name binds nothing. -/
def withConstant (vocabulary : Vocabulary) (name : String) (value : Rat) : Vocabulary :=
  if h : name = "" then vocabulary
  else
    { vocabulary with
      constants := insertConstant ⟨name, value⟩ vocabulary.constants
      ascending := pairwise_insertConstant vocabulary.ascending _
      named := fun c hc => by
        rcases mem_insertConstant hc with rfl | hc
        · exact h
        · exact vocabulary.named c hc }

/-- The vocabulary with the exact value of a floating-point word as a constant. -/
def withFloatConstant (vocabulary : Vocabulary) (name : String) (word : UInt64) :
    Except Error Vocabulary :=
  (Binary64.coefficient word).map fun value => vocabulary.withConstant name value

def constant? (vocabulary : Vocabulary) (name : String) : Option Rat :=
  (vocabulary.constants.find? (fun c => c.name == name)).map NamedConstant.value

/-- The longest of some constants whose name the text begins with. -/
def longestAmong (input : List Char) : List NamedConstant → Option NamedConstant
  | [] => none
  | c :: rest =>
      match longestAmong input rest with
      | none => if c.name.toList.isPrefixOf input then some c else none
      | some best =>
          if c.name.toList.isPrefixOf input && decide (best.name.length < c.name.length) then some c
          else some best

/-- The constant of the longest name that the text begins with. -/
def longestConstant? (vocabulary : Vocabulary) (input : List Char) : Option NamedConstant :=
  longestAmong input vocabulary.constants

/-- Some constant's name begins with the character. -/
def startsConstant (vocabulary : Vocabulary) (c : Char) : Bool :=
  vocabulary.constants.any fun constant => constant.name.toList.head? == some c

/-- The polynomial with the symbol of the vocabulary and with the moduli that the vocabulary has. -/
def configure (vocabulary : Vocabulary) (p : SparsePolynomial) : SparsePolynomial :=
  { p with setting := vocabulary.setting.over p.setting }

end Vocabulary

end ExactAlgebra
