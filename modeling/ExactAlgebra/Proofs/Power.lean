import ExactAlgebra.Power
import ExactAlgebra.Proofs.Results
import Mathlib.Algebra.Group.Basic
import Mathlib.Tactic.Ring

/-!
Repeated squaring for any multiplication that can fail. Where products stand for products of a
monoid, a power stands for the power there, and it is itself one of the products that were formed.
A power exists when the products exist that are asked for on the way.
-/

namespace ExactAlgebra

variable {ε α M : Type} {mul : α → α → Except ε α}

theorem powerBy_of_ne_zero {exponent : Nat} (h : exponent ≠ 0) (result base : α) :
    powerBy mul result base exponent = (do
      let next ← mulIfOdd mul result base exponent
      if exponent / 2 = 0 then .ok next
      else do
        let square ← mul base base
        powerBy mul next square (exponent / 2)) := by
  rw [powerBy, dif_neg h]

/-- What happened in the first round of the loop of a power that exists. -/
theorem exists_round_of_powerBy {result base power : α} {exponent : Nat} (hexponent : exponent ≠ 0)
    (h : powerBy mul result base exponent = .ok power) :
    ∃ next, mulIfOdd mul result base exponent = .ok next ∧
      (exponent / 2 = 0 ∧ next = power ∨
        exponent / 2 ≠ 0 ∧ ∃ square, mul base base = .ok square ∧
          powerBy mul next square (exponent / 2) = .ok power) := by
  rw [powerBy_of_ne_zero hexponent] at h
  obtain ⟨next, hnext, hrest⟩ := eq_ok_of_bind h
  refine ⟨next, hnext, ?_⟩
  by_cases hlast : exponent / 2 = 0
  · rw [if_pos hlast] at hrest
    exact Or.inl ⟨hlast, Except.ok.inj hrest⟩
  · rw [if_neg hlast] at hrest
    exact Or.inr ⟨hlast, eq_ok_of_bind hrest⟩

theorem mul_mod_two_add_mul_div_two (size exponent : Nat) :
    size * (exponent % 2) + (size + size) * (exponent / 2) = size * exponent := by
  conv_rhs => rw [← Nat.mod_add_div exponent 2]
  ring

section Products

/-- The loop of a power asks for the product of `a` and `b`: as the factor for a binary digit that
is one, as the square of the base while more of the exponent is left, or in a later round. -/
inductive AsksFor (mul : α → α → Except ε α) : α → α → Nat → α → α → Prop where
  | factor {result base : α} {exponent : Nat} (hodd : exponent % 2 = 1) :
      AsksFor mul result base exponent result base
  | square {result base next : α} {exponent : Nat}
      (hnext : mulIfOdd mul result base exponent = .ok next) (hmore : exponent / 2 ≠ 0) :
      AsksFor mul result base exponent base base
  | later {result base next square a b : α} {exponent : Nat}
      (hnext : mulIfOdd mul result base exponent = .ok next) (hmore : exponent / 2 ≠ 0)
      (hsquare : mul base base = .ok square)
      (hasks : AsksFor mul next square (exponent / 2) a b) :
      AsksFor mul result base exponent a b

variable {result base power a b : α} {exponent : Nat}

/-- A power fails in one of the products that it asks for. -/
theorem exists_mul_eq_error_of_powerBy {cause : ε}
    (h : powerBy mul result base exponent = .error cause) :
    ∃ a b, AsksFor mul result base exponent a b ∧ mul a b = .error cause := by
  induction exponent using Nat.strongRecOn generalizing result base with
  | ind exponent ih =>
      by_cases hzero : exponent = 0
      · rw [hzero, powerBy_zero] at h
        cases h
      · rw [powerBy_of_ne_zero hzero] at h
        rcases eq_error_of_bind h with hfactor | ⟨next, hnext, hmore⟩
        · rw [mulIfOdd] at hfactor
          split at hfactor
          · rename_i hodd
            exact ⟨result, base, .factor hodd, hfactor⟩
          · cases hfactor
        · split at hmore
          · cases hmore
          · rename_i hlast
            rcases eq_error_of_bind hmore with hfails | ⟨square, hsquare, hrest⟩
            · exact ⟨base, base, .square hnext hlast, hfails⟩
            · obtain ⟨a, b, hasks, hfails⟩ :=
                ih _ (Nat.div_lt_self (Nat.pos_of_ne_zero hzero) (by decide)) hrest
              exact ⟨a, b, .later hnext hlast hsquare hasks, hfails⟩

/-- Where the power exists, so does every product that it asks for. -/
theorem exists_mul_of_asksFor (h : powerBy mul result base exponent = .ok power)
    (hasks : AsksFor mul result base exponent a b) : ∃ product, mul a b = .ok product := by
  induction hasks with
  | @factor result base exponent hodd =>
      obtain ⟨next, hnext, -⟩ := exists_round_of_powerBy (by omega) h
      rw [mulIfOdd, if_pos hodd] at hnext
      exact ⟨next, hnext⟩
  | square _ hmore =>
      obtain ⟨_, -, ⟨hlast, -⟩ | ⟨-, square, hsquare, -⟩⟩ := exists_round_of_powerBy (by omega) h
      · exact absurd hlast hmore
      · exact ⟨square, hsquare⟩
  | later hnext hmore hsquare _ ih =>
      obtain ⟨_, hnext', ⟨hlast, -⟩ | ⟨-, _, hsquare', hrest⟩⟩ :=
        exists_round_of_powerBy (by omega) h
      · exact absurd hlast hmore
      · rw [hnext] at hnext'
        rw [hsquare] at hsquare'
        cases hnext'
        cases hsquare'
        exact ih hrest

/-- Where sizes add up in products below a limit, no product that a power asks for is larger than
the result so far and the power still to be multiplied are together. -/
theorem size_le_of_asksFor {size : α → Nat} {limit : Nat}
    (hmul : ∀ a b c, size a + size b < limit → mul a b = .ok c → size c ≤ size a + size b)
    (hasks : AsksFor mul result base exponent a b)
    (h : size result + size base * exponent < limit) :
    size a + size b ≤ size result + size base * exponent := by
  induction hasks with
  | factor hodd => exact Nat.add_le_add_left (Nat.le_mul_of_pos_right _ (by omega)) _
  | @square result base _ exponent _ hmore =>
      have htwo : size base * 2 ≤ size base * exponent := Nat.mul_le_mul_left _ (by omega)
      omega
  | @later result base next square a b exponent hnext hmore hsquare _ ih =>
      have hsizes := mul_mod_two_add_mul_div_two (size base) exponent
      have hhalf : size base + size base ≤ (size base + size base) * (exponent / 2) :=
        Nat.le_mul_of_pos_right _ (Nat.pos_of_ne_zero hmore)
      have hsquareSize := Nat.mul_le_mul_right (exponent / 2) (hmul _ _ _ (by omega) hsquare)
      have hnextSize : size next ≤ size result + size base * (exponent % 2) := by
        rw [mulIfOdd] at hnext
        rcases Nat.mod_two_eq_zero_or_one exponent with heven | hodd
        · rw [if_neg (by omega)] at hnext
          cases hnext
          exact Nat.le_add_right _ _
        · rw [if_pos hodd] at hnext
          rw [hodd, Nat.mul_one] at hsizes ⊢
          exact hmul _ _ _ (by omega) hnext
      have hle := ih (by omega)
      omega

end Products

/-- A function that carries one multiplication over to another carries the powers over. -/
theorem powerBy_map {β : Type} {mul' : β → β → Except ε β} {f : α → β}
    (hmul : ∀ a b, mul' (f a) (f b) = (mul a b).map f) (result base : α) (exponent : Nat) :
    powerBy mul' (f result) (f base) exponent = (powerBy mul result base exponent).map f := by
  induction exponent using Nat.strongRecOn generalizing result base with
  | ind exponent ih =>
      by_cases hzero : exponent = 0
      · rw [hzero, powerBy_zero, powerBy_zero]
        rfl
      · have hodd : mulIfOdd mul' (f result) (f base) exponent =
            (mulIfOdd mul result base exponent).map f := by
          unfold mulIfOdd
          split
          · exact hmul result base
          · rfl
        rw [powerBy_of_ne_zero hzero, powerBy_of_ne_zero hzero]
        refine bind_eq_map_bind hodd fun next => ?_
        split
        · rfl
        · refine bind_eq_map_bind (hmul base base) fun square => ?_
          exact ih (exponent / 2) (Nat.div_lt_self (Nat.pos_of_ne_zero hzero) (by decide)) _ _

/-- An exponent is its lowest binary digit and twice the rest. -/
theorem pow_mod_two_mul_pow_div_two [Monoid M] (x : M) (exponent : Nat) :
    x ^ (exponent % 2) * (x * x) ^ (exponent / 2) = x ^ exponent := by
  rw [← sq, ← pow_mul, ← pow_add, Nat.mod_add_div]

section Meaning

variable [Monoid M] {Represents : α → M → Prop}

/-- Products of values that stand for elements of a monoid stand for their products. -/
def MultipliesAs (mul : α → α → Except ε α) (Represents : α → M → Prop) : Prop :=
  ∀ ⦃a b c : α⦄ ⦃x y : M⦄, Represents a x → Represents b y → mul a b = .ok c →
    Represents c (x * y)

theorem MultipliesAs.mulIfOdd (hmul : MultipliesAs mul Represents) {result base next : α} {x y : M}
    {exponent : Nat} (hresult : Represents result x) (hbase : Represents base y)
    (h : mulIfOdd mul result base exponent = .ok next) :
    Represents next (x * y ^ (exponent % 2)) := by
  rw [ExactAlgebra.mulIfOdd] at h
  rcases Nat.mod_two_eq_zero_or_one exponent with heven | hodd
  · rw [if_neg (by omega)] at h
    cases h
    rwa [heven, pow_zero, mul_one]
  · rw [if_pos hodd] at h
    rw [hodd, pow_one]
    exact hmul hresult hbase h

/-- A power with a positive exponent is a product of two values that were formed before it, and
these stand for two factors of the power in the monoid. -/
theorem MultipliesAs.exists_mul_of_powerBy (hmul : MultipliesAs mul Represents)
    {result base power : α} {x y : M} {exponent : Nat} (hresult : Represents result x)
    (hbase : Represents base y) (hexponent : exponent ≠ 0)
    (h : powerBy mul result base exponent = .ok power) :
    ∃ a b z w, Represents a z ∧ Represents b w ∧ z * w = x * y ^ exponent ∧
      mul a b = .ok power := by
  induction exponent using Nat.strongRecOn generalizing result base x y with
  | ind exponent ih =>
      obtain ⟨next, hnext, ⟨hlast, rfl⟩ | ⟨hmore, square, hsquare, hrest⟩⟩ :=
        exists_round_of_powerBy hexponent h
      · have hone : exponent = 1 := by
          omega
        rw [ExactAlgebra.mulIfOdd, hone, if_pos rfl] at hnext
        exact ⟨result, base, x, y, hresult, hbase, by rw [hone, pow_one], hnext⟩
      · obtain ⟨a, b, z, w, ha, hb, hproduct, hpower⟩ :=
          ih (exponent / 2) (Nat.div_lt_self (Nat.pos_of_ne_zero hexponent) (by decide))
            (hmul.mulIfOdd hresult hbase hnext) (hmul hbase hbase hsquare) hmore hrest
        refine ⟨a, b, z, w, ha, hb, ?_, hpower⟩
        rw [hproduct, mul_assoc, pow_mod_two_mul_pow_div_two]

/-- A power stands for the power in the monoid. -/
theorem MultipliesAs.powerBy (hmul : MultipliesAs mul Represents) {result base power : α} {x y : M}
    {exponent : Nat} (hresult : Represents result x) (hbase : Represents base y)
    (h : powerBy mul result base exponent = .ok power) :
    Represents power (x * y ^ exponent) := by
  by_cases hexponent : exponent = 0
  · subst hexponent
    rw [powerBy_zero] at h
    cases h
    rwa [pow_zero, mul_one]
  · obtain ⟨a, b, z, w, ha, hb, hproduct, hpower⟩ :=
      hmul.exists_mul_of_powerBy hresult hbase hexponent h
    exact hproduct ▸ hmul ha hb hpower

end Meaning

/-- A power exists when what fits makes one round of the loop succeed, and the rest of the exponent
fits after it. -/
theorem exists_powerBy {Fits : α → α → Nat → Prop}
    (hstep : ∀ result base exponent, exponent ≠ 0 → Fits result base exponent →
      ∃ next, mulIfOdd mul result base exponent = .ok next ∧
        (exponent / 2 ≠ 0 → ∃ square, mul base base = .ok square ∧
          Fits next square (exponent / 2)))
    {result base : α} {exponent : Nat} (h : Fits result base exponent) :
    ∃ power, powerBy mul result base exponent = .ok power := by
  induction exponent using Nat.strongRecOn generalizing result base with
  | ind exponent ih =>
      by_cases hzero : exponent = 0
      · subst hzero
        exact ⟨result, powerBy_zero _ _ _⟩
      · obtain ⟨next, hnext, hsquares⟩ := hstep result base exponent hzero h
        rw [powerBy_of_ne_zero hzero, hnext]
        by_cases hlast : exponent / 2 = 0
        · exact ⟨next, if_pos hlast⟩
        · obtain ⟨square, hsquare, hrest⟩ := hsquares hlast
          obtain ⟨power, hpower⟩ :=
            ih (exponent / 2) (Nat.div_lt_self (Nat.pos_of_ne_zero hzero) (by decide)) hrest
          refine ⟨power, ?_⟩
          change (if exponent / 2 = 0 then _ else _) = _
          rw [if_neg hlast, hsquare]
          exact hpower

/-- A power exists when all products of small values exist and are small. -/
theorem exists_powerBy_of_closed {Small : α → Prop}
    (hmul : ∀ a b, Small a → Small b → ∃ c, mul a b = .ok c ∧ Small c) {result base : α}
    (hresult : Small result) (hbase : Small base) (exponent : Nat) :
    ∃ power, powerBy mul result base exponent = .ok power := by
  let Fits : α → α → Nat → Prop := fun result base _ => Small result ∧ Small base
  have hfits : Fits result base exponent := ⟨hresult, hbase⟩
  refine exists_powerBy ?_ hfits
  rintro result base exponent - ⟨hresult, hbase⟩
  obtain ⟨square, hsquare, hsmall⟩ := hmul base base hbase hbase
  rcases Nat.mod_two_eq_zero_or_one exponent with heven | hodd
  · exact ⟨result, by simp [mulIfOdd, heven], fun _ => ⟨square, hsquare, hresult, hsmall⟩⟩
  · obtain ⟨next, hnext, hnextSmall⟩ := hmul result base hresult hbase
    exact ⟨next, by rw [mulIfOdd, if_pos hodd, hnext],
      fun _ => ⟨square, hsquare, hnextSmall, hsmall⟩⟩

/-- Sizes add up in products, and products exist below a limit. Then a power exists when the size of
the result so far and that of the power still to be multiplied stay below the limit together. -/
theorem exists_powerBy_of_size {size : α → Nat} {limit : Nat}
    (hmul : ∀ a b, size a + size b < limit → ∃ c, mul a b = .ok c ∧ size c ≤ size a + size b)
    {result base : α} {exponent : Nat} (h : size result + size base * exponent < limit) :
    ∃ power, powerBy mul result base exponent = .ok power := by
  cases hpower : powerBy mul result base exponent with
  | ok power => exact ⟨power, rfl⟩
  | error cause =>
      obtain ⟨a, b, hasks, hfails⟩ := exists_mul_eq_error_of_powerBy hpower
      have hsize : ∀ a b c, size a + size b < limit → mul a b = .ok c →
          size c ≤ size a + size b := by
        intro a b c hsum hc
        obtain ⟨d, hd, hle⟩ := hmul a b hsum
        obtain rfl : d = c := Except.ok.inj (hd.symm.trans hc)
        exact hle
      obtain ⟨c, hc, -⟩ := hmul a b ((size_le_of_asksFor hsize hasks h).trans_lt h)
      rw [hc] at hfails
      cases hfails

end ExactAlgebra
