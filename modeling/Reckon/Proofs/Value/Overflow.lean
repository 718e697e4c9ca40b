import Mathlib.Analysis.SpecialFunctions.Pow.Real
import Reckon.Proofs.Number.Rounding
import Reckon.Proofs.Value.Power
/-
  Powers of whole numbers that are not exact. They are computed on floating point numbers, and
  the power of two such numbers is the machine's (`Float.pow`), of which nothing is known here. So
  it is a parameter (`roundedPowerBy`), and what it must do is to overflow: where the real power
  is at least 2 ^ 1024, the result is not finite (`OverflowsBeyondRange`).

  A power that is not exact is that large even after base and exponent were rounded, because
  neither is rounded below the power of two at its leading bit. So it fails with an overflow
  (`roundedPowerBy_overflows`), and a power that fits a floating point number is never rounded to
  one (`OperatorFunctions.defaultPower_exact_or_overflow`).
-/
namespace Reckon

namespace Value

/-! ## Any power of floating point numbers -/

/-- A power of floating point numbers, by a given function for numbers in range. -/
def floatPowerBy (power : Float → Float → Float) (complex : Fault) (x y : Float) :
    Except Fault Value :=
  if isFinite x && isFinite y then
    if x == 0 && y < 0 then .error .zeroToNegativePower
    else if x < 0 && !isWhole y then
      if isFinite (power x.abs y) then .error complex else .error .complexPowerOverflow
    else
      let p := power x y
      if isFinite p then .ok (.float p) else .error .powerOverflow
  else .ok (.float (power x y))

/-- A power of whole numbers by floating point arithmetic, with a given function for powers. -/
def roundedPowerBy (power : Float → Float → Float) (complex : Fault) (base exponent : Int) :
    Except Fault Value := do
  let x ← (Number.int base).toFloat
  let y ← (Number.int exponent).toFloat
  floatPowerBy power complex x y

theorem roundedPowerBy_pow : roundedPowerBy Float.pow = roundedPower := rfl

/-- A power of floating point numbers has no finite result where the real power is beyond the
range of such numbers. -/
def OverflowsBeyondRange (power : Float → Float → Float) : Prop :=
  ∀ x y, isFinite x = true → isFinite y = true →
    Binary64.rangeEnd ≤ |(Binary64.ofFloat x).value| ^ (Binary64.ofFloat y).value →
    isFinite (power x y) = false

/-- The machine's power, made infinite where the real power is beyond the range. -/
noncomputable def cappedPow (x y : Float) : Float :=
  if Binary64.rangeEnd ≤ |(Binary64.ofFloat x).value| ^ (Binary64.ofFloat y).value then
    Binary64.infinity false
  else x.pow y

theorem overflowsBeyondRange_cappedPow : OverflowsBeyondRange cappedPow := by
  intro x y _ _ hbeyond
  rw [cappedPow, if_pos hbeyond]
  decide

/-! ## Large powers -/

section

open Binary64

variable {power : Float → Float → Float} {m n k j : Nat}

theorem isFinite_ofBits (negative : Bool) (hfull : leadingBit ≤ m) (hm : m < infinityBits) :
    isFinite (ofBits negative m) = true := by
  rw [isFinite, ofFloat_ofBits negative hfull hm]

/-- A power with a base from `2 ^ k` and an exponent from `2 ^ j` on. -/
theorem two_pow_le_rpow {x y : ℝ} (hx : 2 ^ k ≤ x) (hy : 2 ^ j ≤ y) :
    (2 : ℝ) ^ (k * 2 ^ j) ≤ x ^ y := by
  have hone : (1 : ℝ) ≤ x := (one_le_pow₀ one_le_two).trans hx
  calc (2 : ℝ) ^ (k * 2 ^ j) = (2 ^ k) ^ (2 ^ j) := pow_mul ..
    _ ≤ x ^ (2 ^ j) := pow_le_pow_left₀ (pow_nonneg zero_le_two k) hx _
    _ = x ^ ((2 ^ j : Nat) : ℝ) := (Real.rpow_natCast ..).symm
    _ ≤ x ^ y := Real.rpow_le_rpow_of_exponent_le hone (by exact_mod_cast hy)

/-- The power of two large numbers is an overflow, whether or not the exponent is taken to be
whole. -/
theorem floatPowerBy_overflows (hpower : OverflowsBeyondRange power) (complex : Fault)
    (negative : Bool) (hk : (k + 1023) * leadingBit ≤ m) (hm : m < infinityBits)
    (hj : (j + 1023) * leadingBit ≤ n) (hn : n < infinityBits) (hlarge : 1024 ≤ k * 2 ^ j) :
    ∃ fault, floatPowerBy power complex (ofBits negative m) (ofBits false n) = .error fault ∧
      fault.kind = .overflow := by
  have hm' : leadingBit ≤ m := leadingBit_le_of_le hk
  have hn' : leadingBit ≤ n := leadingBit_le_of_le hj
  have hpos : 0 < m := Nat.lt_of_lt_of_le (by decide) hm'
  have hsize : rangeEnd ≤ |(ofFloat (ofBits false m)).value| ^ (ofFloat (ofBits false n)).value :=
    (pow_le_pow_right₀ one_le_two hlarge).trans
      (two_pow_le_rpow ((two_pow_le_value hk hm).trans (le_abs_self _)) (two_pow_le_value hj hn))
  -- the sign of the base does not matter
  have hbeyond : ∀ b, isFinite (power (ofBits b m) (ofBits false n)) = false := by
    intro b
    refine hpower _ _ (isFinite_ofBits b hm' hm) (isFinite_ofBits false hn' hn) ?_
    rwa [abs_value_ofBits b hm' hm]
  unfold floatPowerBy
  dsimp only
  rw [isFinite_ofBits negative hm' hm, isFinite_ofBits false hn' hn,
    ofBits_beq_zero negative hpos hm, abs_ofBits negative hm, hbeyond false, hbeyond negative]
  cases decide (ofBits negative m < 0) && !isWhole (ofBits false n) with
  | true => exact ⟨.complexPowerOverflow, rfl, rfl⟩
  | false => exact ⟨.powerOverflow, rfl, rfl⟩

/-- A whole number is out of range as a floating point number, or is rounded to one. -/
theorem toFloat_int_cases (i : Int) :
    (Number.int i).toFloat = .error .intTooLarge
      ∨ ∃ x, ofInt? i = some x ∧ (Number.int i).toFloat = .ok x := by
  unfold Number.toFloat
  cases hround : ofInt? i with
  | none => exact Or.inl (by simp only [hround])
  | some x => exact Or.inr ⟨x, rfl, by simp only [hround]⟩

/-- The leading bits of base and exponent alone put a power that is not exact beyond the range. -/
theorem le_log2_mul_two_pow {base : Int} {exponent : Nat} (h : ¬ IsExactPower base exponent) :
    1024 ≤ base.natAbs.log2 * 2 ^ exponent.log2 := by
  rw [IsExactPower, not_or, not_le, not_le] at h
  obtain ⟨hbase, hlarge⟩ := h
  have hbits : bitLength base = base.natAbs.log2 + 1 := if_neg (by rintro rfl; contradiction)
  have hlog : 1 ≤ base.natAbs.log2 := (Nat.le_log2 (by omega)).2 hbase
  have hexponent : exponent < 2 ^ (exponent.log2 + 1) := Nat.lt_log2_self
  rw [maxExactPowerBits, hbits] at hlarge
  have hdouble : 4096 < 2 * base.natAbs.log2 * (2 * 2 ^ exponent.log2) :=
    calc 4096 < (base.natAbs.log2 + 1) * exponent := hlarge
      _ ≤ 2 * base.natAbs.log2 * (2 * 2 ^ exponent.log2) :=
        Nat.mul_le_mul (by omega) (by rw [← Nat.pow_succ']; exact hexponent.le)
  have hfour : 2 * base.natAbs.log2 * (2 * 2 ^ exponent.log2)
      = 4 * (base.natAbs.log2 * 2 ^ exponent.log2) := by ring
  omega

/-- A power that is not exact is an overflow. -/
theorem roundedPowerBy_overflows (hpower : OverflowsBeyondRange power) (complex : Fault)
    {base : Int} {exponent : Nat} (h : ¬ IsExactPower base exponent) :
    ∃ fault, roundedPowerBy power complex base exponent = .error fault ∧
      fault.kind = .overflow := by
  have hbase : base ≠ 0 := by
    rintro rfl
    exact h (Or.inl (Nat.zero_le 1))
  have hexponent : (exponent : Int) ≠ 0 := by
    intro hzero
    rw [Int.natCast_eq_zero.1 hzero] at h
    exact h (Or.inr (Nat.zero_le _))
  unfold roundedPowerBy
  obtain hx | ⟨x, hround, hx⟩ := toFloat_int_cases base
  · rw [hx]
    exact ⟨.intTooLarge, rfl, rfl⟩
  obtain hy | ⟨y, hround', hy⟩ := toFloat_int_cases exponent
  · rw [hx, hy]
    exact ⟨.intTooLarge, rfl, rfl⟩
  obtain ⟨m, rfl, hk, hm⟩ := ofInt?_eq_some hbase hround
  obtain ⟨n, rfl, hj, hn⟩ := ofInt?_eq_some hexponent hround'
  have hpositive : decide ((exponent : Int) < 0) = false := decide_eq_false (by omega)
  rw [hx, hy, hpositive]
  exact floatPowerBy_overflows hpower complex _ hk hm hj hn (le_log2_mul_two_pow h)

end

end Value

namespace OperatorFunctions

open Value

/-- A power of whole numbers is exact, and then not longer than the bound unless the base is at
most one in size; or it is computed on floating point numbers, which happens only beyond their
range, and then it fails with an overflow. -/
theorem defaultPower_exact_or_overflow {power : Float → Float → Float}
    (hpower : OverflowsBeyondRange power) (base : Int) {exponent : Nat} (hexponent : 0 < exponent) :
    (defaultPower base exponent = some (.ok (.int (base ^ exponent)))
      ∧ (1 < base.natAbs → bitLength (base ^ exponent) ≤ maxExactPowerBits))
    ∨ (2 ^ 2048 ≤ (base ^ exponent).natAbs
      ∧ ∃ complex, defaultPower base exponent
          = some ((roundedPowerBy Float.pow complex base exponent).mapError .fault)
        ∧ ∃ fault, roundedPowerBy power complex base exponent = .error fault
          ∧ fault.kind = .overflow) := by
  rw [defaultPower_natCast]
  split_ifs with hexact
  · refine Or.inl ⟨rfl, fun hbase => ?_⟩
    exact (bitLength_pow_le base hexponent).trans (hexact.resolve_left (not_le.2 hbase))
  · have hsize : 2048 < bitLength (base ^ exponent) :=
      (by decide : 2048 < 2049).trans (lt_bitLength_pow_of_not_exact hexact)
    exact Or.inr ⟨lt_bitLength_iff.1 hsize, _, by rw [roundedPowerBy_pow],
      roundedPowerBy_overflows hpower _ hexact⟩

/-- The power 2 ^ 2049 where the machine's power is infinite beyond the range: an overflow. -/
theorem defaultPower_overflow_two :
    OverflowsBeyondRange cappedPow ∧ 0 < 2049
      ∧ 2 ^ 2048 ≤ ((2 : Int) ^ 2049).natAbs
      ∧ ∃ complex, defaultPower 2 2049
          = some ((roundedPowerBy Float.pow complex 2 2049).mapError .fault)
        ∧ ∃ fault, roundedPowerBy cappedPow complex 2 2049 = .error fault
          ∧ fault.kind = .overflow := by
  have hinexact : ¬ defaultPower 2 2049 = some (.ok (.int (2 ^ 2049))) :=
    mt (defaultPower_eq_ok_iff 2 2049).1 (by decide)
  exact ⟨overflowsBeyondRange_cappedPow, by decide,
    (defaultPower_exact_or_overflow overflowsBeyondRange_cappedPow 2 (by decide)).resolve_left
      fun h => hinexact h.1⟩

end OperatorFunctions

end Reckon
