import ExactAlgebra.Proofs.Results
import ExactAlgebra.Proofs.Word
import Mathlib.Data.Nat.Size

/-!
Powers modulo a 64-bit number, round by round. Both factors of every product are residues, so that
no product needs more than 128 bits, not even the last square, which is formed and never used. A
round takes one binary digit from the exponent and leaves the residue of the result times the power
that is still to come, so there are as many rounds as the exponent has digits.
-/

namespace ExactAlgebra.Integer

/-- What changes from round to round of a modular power: the result so far, the last square, and
the digits of the exponent that are left. -/
structure PowerStage where
  result : ℕ
  base : ℕ
  exponent : ℕ

namespace PowerStage

def start (base exponent modulus : ℕ) : PowerStage := ⟨1 % modulus, base % modulus, exponent⟩

/-- One round, with its products in 128 bits. -/
def round (modulus : ℕ) (stage : PowerStage) : Except Error PowerStage := do
  let result ← mulIfOdd (mulMod modulus) stage.result stage.base stage.exponent
  let base ← mulMod modulus stage.base stage.base
  return ⟨result, base, stage.exponent / 2⟩

/-- After a number of rounds, none of which fails, a stage is followed by another one. A round needs
a digit of the exponent. -/
inductive Reaches (modulus : ℕ) : PowerStage → ℕ → PowerStage → Prop
  | refl (stage : PowerStage) : Reaches modulus stage 0 stage
  | next {stage later last : PowerStage} {rounds : ℕ} (hexponent : stage.exponent ≠ 0)
      (hround : stage.round modulus = .ok later) (hrest : Reaches modulus later rounds last) :
      Reaches modulus stage (rounds + 1) last

/-- Result and square are residues. -/
structure IsReduced (modulus : ℕ) (stage : PowerStage) : Prop where
  result_lt : stage.result < modulus
  base_lt : stage.base < modulus

/-- Both products of a round fit in 128 bits. -/
structure Fits (stage : PowerStage) : Prop where
  factor : stage.result * stage.base < Nat.pow 2 128
  square : stage.base * stage.base < Nat.pow 2 128

variable {modulus rounds : ℕ} {stage later last : PowerStage}

theorem isReduced_start (hmodulus : 0 < modulus) (base exponent : ℕ) :
    (start base exponent modulus).IsReduced modulus :=
  ⟨Nat.mod_lt _ hmodulus, Nat.mod_lt _ hmodulus⟩

theorem IsReduced.fits (h : stage.IsReduced modulus) (hmodulus : modulus ≤ Nat.pow 2 64) :
    stage.Fits :=
  ⟨mul_lt_of_residues hmodulus h.result_lt h.base_lt,
    mul_lt_of_residues hmodulus h.base_lt h.base_lt⟩

/-- A round from residues leads to residues and takes one digit from the exponent. -/
theorem IsReduced.exists_round (h : stage.IsReduced modulus) (hmodulus : modulus ≤ Nat.pow 2 64) :
    ∃ later, stage.round modulus = .ok later ∧ later.IsReduced modulus ∧
      later.exponent = stage.exponent / 2 := by
  have hpos : 0 < modulus := Nat.zero_lt_of_lt h.result_lt
  obtain ⟨next, hnext, hlt⟩ : ∃ next,
      mulIfOdd (mulMod modulus) stage.result stage.base stage.exponent = .ok next ∧
        next < modulus := by
    rw [mulIfOdd]
    split
    · exact ⟨_, mulMod_of_lt hmodulus h.result_lt h.base_lt, Nat.mod_lt _ hpos⟩
    · exact ⟨_, rfl, h.result_lt⟩
  refine ⟨⟨next, stage.base * stage.base % modulus, stage.exponent / 2⟩, ?_,
    ⟨hlt, Nat.mod_lt _ hpos⟩, rfl⟩
  rw [round, hnext, mulMod_of_lt hmodulus h.base_lt h.base_lt]
  rfl

/-- The loop does the same from a stage as from the stage one round later. -/
theorem powModFrom_of_round (hexponent : stage.exponent ≠ 0)
    (hround : stage.round modulus = .ok later) :
    powModFrom modulus later.result later.base later.exponent =
      powModFrom modulus stage.result stage.base stage.exponent := by
  obtain ⟨next, hnext, hrest⟩ := eq_ok_of_bind hround
  obtain ⟨square, hsquare, hlater⟩ := eq_ok_of_bind hrest
  obtain rfl : (⟨next, square, stage.exponent / 2⟩ : PowerStage) = later := Except.ok.inj hlater
  conv_rhs => rw [powModFrom, dif_neg hexponent, hnext]
  change _ = mulMod modulus stage.base stage.base >>= _
  rw [hsquare]
  rfl

/-- What all rounds leave as it is: result and square are residues, and the result times the power
that is still to come has the residue that it had before. -/
theorem Reaches.keeps (h : Reaches modulus stage rounds last) (hmodulus : modulus ≤ Nat.pow 2 64)
    (hreduced : stage.IsReduced modulus) :
    last.IsReduced modulus ∧
      last.result * last.base ^ last.exponent ≡
        stage.result * stage.base ^ stage.exponent [MOD modulus] := by
  induction h with
  | refl stage => exact ⟨hreduced, Nat.ModEq.rfl⟩
  | @next stage later last rounds hexponent hround hrest ih =>
      obtain ⟨other, hother, hlater, -⟩ := hreduced.exists_round hmodulus
      obtain rfl : other = later := Except.ok.inj (hother.symm.trans hround)
      obtain ⟨hlast, hresidue⟩ := ih hlater
      have hloop := powModFrom_of_round hexponent hround
      rw [powModFrom_of_lt hmodulus hlater.result_lt hlater.base_lt,
        powModFrom_of_lt hmodulus hreduced.result_lt hreduced.base_lt] at hloop
      exact ⟨hlast, hresidue.trans (Except.ok.inj hloop)⟩

theorem size_eq_size_div_two_add_one {n : ℕ} (hn : n ≠ 0) : n.size = (n / 2).size + 1 := by
  have hbit : Nat.bit n.bodd n.div2 = n := Nat.bit_bodd_div2 n
  rw [← Nat.div2_val]
  conv_lhs => rw [← hbit]
  exact Nat.size_bit (hbit.symm ▸ hn)

/-- The exponent is used up after as many rounds as it has digits. -/
theorem IsReduced.exists_reaches (h : stage.IsReduced modulus) (hmodulus : modulus ≤ Nat.pow 2 64) :
    ∃ last, Reaches modulus stage stage.exponent.size last ∧ last.exponent = 0 := by
  generalize hexponent : stage.exponent = exponent
  induction exponent using Nat.strongRecOn generalizing stage with
  | ind exponent ih =>
      by_cases hzero : exponent = 0
      · subst hzero
        exact ⟨stage, .refl stage, hexponent⟩
      · obtain ⟨later, hround, hlater, hhalf⟩ := h.exists_round hmodulus
        rw [hexponent] at hhalf
        obtain ⟨last, hreaches, hlast⟩ :=
          ih _ (Nat.div_lt_self (Nat.pos_of_ne_zero hzero) (by decide)) hlater hhalf
        rw [size_eq_size_div_two_add_one hzero]
        exact ⟨last, .next (hexponent ▸ hzero) hround hreaches, hlast⟩

end PowerStage

open PowerStage (start Reaches)

/-- Powers modulo a positive 64-bit number, for all 64-bit bases and exponents. The power exists, is
a word and is the residue of the exact power. The loop ends after as many rounds as the exponent has
binary digits, at most 64, and at every stage on the way the products of the next round fit in 128
bits, the result and the last square are residues, and the result times the power still to come has
the residue of the exact power. -/
theorem powMod_isExact (base exponent : UInt64) {modulus : UInt64} (hmodulus : 0 < modulus.toNat) :
    (∃ power : UInt64,
      powMod base.toNat exponent.toNat modulus.toNat = .ok power.toNat ∧
        power.toNat = base.toNat ^ exponent.toNat % modulus.toNat) ∧
    exponent.toNat.size ≤ 64 ∧
    (∃ last, Reaches modulus.toNat (start base.toNat exponent.toNat modulus.toNat)
        exponent.toNat.size last ∧
      last.exponent = 0 ∧ last.result = base.toNat ^ exponent.toNat % modulus.toNat) ∧
    ∀ rounds stage,
      Reaches modulus.toNat (start base.toNat exponent.toNat modulus.toNat) rounds stage →
        stage.Fits ∧ stage.IsReduced modulus.toNat ∧
          stage.result * stage.base ^ stage.exponent ≡
            base.toNat ^ exponent.toNat [MOD modulus.toNat] := by
  have hword : modulus.toNat ≤ Nat.pow 2 64 := modulus.toNat_lt.le
  have hstart := PowerStage.isReduced_start hmodulus base.toNat exponent.toNat
  have hresidue : 1 % modulus.toNat * (base.toNat % modulus.toNat) ^ exponent.toNat ≡
      base.toNat ^ exponent.toNat [MOD modulus.toNat] := by
    simpa using (Nat.mod_modEq 1 modulus.toNat).mul
      ((Nat.mod_modEq base.toNat modulus.toNat).pow exponent.toNat)
  have hkeeps : ∀ rounds stage,
      Reaches modulus.toNat (start base.toNat exponent.toNat modulus.toNat) rounds stage →
        stage.Fits ∧ stage.IsReduced modulus.toNat ∧
          stage.result * stage.base ^ stage.exponent ≡
            base.toNat ^ exponent.toNat [MOD modulus.toNat] := by
    intro rounds stage hreaches
    obtain ⟨hreduced, hsame⟩ := hreaches.keeps hword hstart
    exact ⟨hreduced.fits hword, hreduced, hsame.trans hresidue⟩
  refine ⟨?_, Nat.size_le.2 exponent.toNat_lt, ?_, hkeeps⟩
  · have hlt : base.toNat ^ exponent.toNat % modulus.toNat < UInt64.size :=
      (Nat.mod_lt _ hmodulus).trans modulus.toNat_lt
    refine ⟨.ofNatLT _ hlt, ?_, UInt64.toNat_ofNatLT⟩
    rw [powMod_of_le hmodulus hword, UInt64.toNat_ofNatLT]
  · obtain ⟨last, hreaches, hlast⟩ := hstart.exists_reaches hword
    refine ⟨last, hreaches, hlast, ?_⟩
    obtain ⟨-, hreduced, hsame⟩ := hkeeps _ _ hreaches
    rw [hlast, pow_zero, mul_one] at hsame
    rw [← hsame, Nat.mod_eq_of_lt hreduced.result_lt]

/-- An odd power of minus one modulo the largest word, which is minus one again. -/
theorem powMod_isExact_largestWord :
    0 < (18446744073709551615 : UInt64).toNat ∧
      powMod 18446744073709551614 18446744073709551615 18446744073709551615 =
        .ok 18446744073709551614 ∧
      18446744073709551614 ^ 18446744073709551615 % 18446744073709551615 =
        18446744073709551614 := by
  have hlargest : (18446744073709551615 : UInt64).toNat = 18446744073709551615 := rfl
  have hminusOne : (18446744073709551614 : UInt64).toNat = 18446744073709551614 := rfl
  have hpos : 0 < (18446744073709551615 : UInt64).toNat := by decide
  obtain ⟨⟨power, hpower, hresidue⟩, -⟩ :=
    powMod_isExact 18446744073709551614 18446744073709551615 hpos
  have hvalue : powMod 18446744073709551614 18446744073709551615 18446744073709551615 =
      .ok 18446744073709551614 := by decide +kernel
  have hsame : power.toNat = 18446744073709551614 := Except.ok.inj (hpower.symm.trans hvalue)
  -- The numerals are not compared up to evaluation, which would have to form the power itself.
  rw [hsame, hlargest, hminusOne] at hresidue
  exact ⟨hpos, hvalue, hresidue.symm⟩

end ExactAlgebra.Integer
