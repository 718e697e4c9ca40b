import Mathlib.Algebra.Order.Group.Int
import Mathlib.Algebra.Ring.Parity
import Mathlib.Tactic.Linarith
import Reckon.Function.Operators
import Reckon.Proofs.Outcome
/-
  Powers of whole numbers. Whether a power is exact is decided by an estimate of its size, the
  base's bits times the exponent. The estimate is never below the size (`bitLength_pow_le`) and
  less than twice the size (`lt_bitLength_pow`). So a power is exact just if the estimate fits or
  the base is at most one in size, and every power of up to 2049 bits is
  (`OperatorFunctions.defaultPower_exact`). One with more bits may be refused although they are
  within the bound (`OperatorFunctions.defaultPower_inexact_within_bound`).
-/
namespace Reckon

namespace Value

/-! ## Sizes -/

theorem bitLength_le_iff {i : Int} {k : Nat} : bitLength i ≤ k ↔ i.natAbs < 2 ^ k := by
  unfold bitLength
  split_ifs with hi
  · subst hi
    exact ⟨fun _ => Nat.two_pow_pos k, fun _ => Nat.zero_le k⟩
  · rw [Nat.succ_le_iff]
    exact Nat.log2_lt (Int.natAbs_ne_zero.2 hi)

theorem lt_bitLength_iff {i : Int} {k : Nat} : k < bitLength i ↔ 2 ^ k ≤ i.natAbs := by
  rw [← not_le, bitLength_le_iff, not_lt]

theorem natAbs_lt_two_pow (i : Int) : i.natAbs < 2 ^ bitLength i :=
  bitLength_le_iff.1 (Nat.le_refl _)

theorem bitLength_two_pow (k : Nat) : bitLength (2 ^ k) = k + 1 := by
  refine Nat.le_antisymm (bitLength_le_iff.2 ?_) (lt_bitLength_iff.2 ?_)
  · rw [Int.natAbs_pow]
    exact Nat.pow_lt_pow_right Nat.one_lt_two (Nat.lt_succ_self k)
  · rw [Int.natAbs_pow]
    exact Nat.le_refl _

/-- The estimate of a power's size is never below it. -/
theorem bitLength_pow_le (i : Int) {n : Nat} (hn : 0 < n) :
    bitLength (i ^ n) ≤ bitLength i * n := by
  rw [bitLength_le_iff, Int.natAbs_pow, pow_mul]
  exact Nat.pow_lt_pow_left (natAbs_lt_two_pow i) (Nat.ne_of_gt hn)

/-- The estimate of a power's size is less than twice that size. -/
theorem lt_bitLength_pow {i : Int} (hi : 1 < i.natAbs) {n k : Nat}
    (h : 2 * k < bitLength i * n) : k + 1 < bitLength (i ^ n) := by
  have htwo : 1 < bitLength i := lt_bitLength_iff.2 hi
  have hlow : 2 ^ (bitLength i - 1) ≤ i.natAbs := lt_bitLength_iff.1 (by omega)
  have hdouble : bitLength i * n ≤ 2 * (bitLength i - 1) * n :=
    Nat.mul_le_mul_right n (by omega)
  have hk : k + 1 ≤ (bitLength i - 1) * n := by
    rw [Nat.mul_assoc] at hdouble
    omega
  rw [lt_bitLength_iff, Int.natAbs_pow]
  calc 2 ^ (k + 1) ≤ 2 ^ ((bitLength i - 1) * n) := Nat.pow_le_pow_right Nat.two_pos hk
    _ = (2 ^ (bitLength i - 1)) ^ n := pow_mul ..
    _ ≤ i.natAbs ^ n := Nat.pow_le_pow_left hlow n

/-! ## Exact powers -/

/-- The bases that are told apart have the powers they should. -/
theorem intPower_eq_pow (i : Int) (n : Nat) : intPower i n = i ^ n := by
  unfold intPower
  split_ifs with hn hzero hone hminus heven
  · rw [hn, pow_zero]
  · rw [hzero, zero_pow hn]
  · rw [hone, one_pow]
  · rw [hminus, (Nat.even_iff.2 heven).neg_one_pow]
  · rw [hminus, (Nat.odd_iff.2 (by omega)).neg_one_pow]
  · rfl

/-- Whether a power is exact: the base is at most one in size, or the estimate fits. -/
def IsExactPower (base : Int) (exponent : Nat) : Prop :=
  base.natAbs ≤ 1 ∨ bitLength base * exponent ≤ maxExactPowerBits

instance (base : Int) (exponent : Nat) : Decidable (IsExactPower base exponent) :=
  inferInstanceAs (Decidable (_ ∨ _))

theorem isLargePower_iff (i : Int) (n : Nat) :
    isLargePower i n = true ↔ ¬ IsExactPower i n := by
  have hestimate : (maxExactPowerBits : Int) < bitLength i * (n : Int)
      ↔ maxExactPowerBits < bitLength i * n := by exact_mod_cast Iff.rfl
  simp only [isLargePower, IsExactPower, Bool.and_eq_true, decide_eq_true_eq, hestimate, not_or,
    not_le, Nat.cast_pos]
  constructor
  · rintro ⟨⟨-, hbase⟩, hlarge⟩
    exact ⟨hbase, hlarge⟩
  · rintro ⟨hbase, hlarge⟩
    exact ⟨⟨Nat.pos_of_mul_pos_left (Nat.zero_lt_of_lt hlarge), hbase⟩, hlarge⟩

/-- A power of whole numbers is exact or computed on floating point numbers. -/
theorem powInts_natCast (complex : Fault) (i : Int) (n : Nat) :
    powInts complex i n
      = if IsExactPower i n then .ok (.int (i ^ n)) else roundedPower complex i n := by
  have hnonneg : decide ((n : Int) < 0) = false := decide_eq_false (by omega)
  rw [powInts, hnonneg, Bool.false_or, Int.toNat_natCast, intPower_eq_pow]
  by_cases hexact : IsExactPower i n
  · rw [if_pos hexact, if_neg (mt (isLargePower_iff i n).1 (not_not_intro hexact))]
  · rw [if_neg hexact, if_pos ((isLargePower_iff i n).2 hexact)]

/-- A power that is not exact has more bits than half of the bound. -/
theorem lt_bitLength_pow_of_not_exact {i : Int} {n : Nat} (h : ¬ IsExactPower i n) :
    2049 < bitLength (i ^ n) := by
  rw [IsExactPower, not_or, not_le, not_le] at h
  exact lt_bitLength_pow h.1 h.2

/-- A power of floating point numbers is no whole number. -/
theorem floatPower_ne_int (complex : Fault) (x y : Float) (i : Int) :
    floatPower complex x y ≠ .ok (.int i) := by
  unfold floatPower
  dsimp only
  split_ifs
  all_goals
    intro h
    cases h

theorem roundedPower_ne_int (complex : Fault) (base exponent i : Int) :
    roundedPower complex base exponent ≠ .ok (.int i) := by
  intro h
  obtain ⟨x, -, h⟩ := exists_of_bind_eq_ok h
  obtain ⟨y, -, h⟩ := exists_of_bind_eq_ok h
  exact floatPower_ne_int complex x y i h

end Value

namespace OperatorFunctions

open Value

/-- What the operator `^` makes of two whole numbers, unless other functions are given. -/
def defaultPower (base exponent : Int) : Option (Except Failure Value) :=
  (default.binary.find? "^").map (·.apply [.int base, .int exponent])

theorem defaultPower_natCast (base : Int) (exponent : Nat) :
    defaultPower base exponent
      = some (if IsExactPower base exponent then .ok (.int (base ^ exponent))
        else (roundedPower (.complexPower (toString base) (toString (exponent : Int))) base
          exponent).mapError .fault) := by
  have hpow : defaultPower base exponent
      = some ((powInts (.complexPower (toString base) (toString (exponent : Int))) base
          exponent).mapError .fault) := rfl
  rw [hpow, powInts_natCast]
  split_ifs with hexact
  · rfl
  · rfl

/-- A power of whole numbers is exact just if it is said to be. -/
theorem defaultPower_eq_ok_iff (base : Int) (exponent : Nat) :
    defaultPower base exponent = some (.ok (.int (base ^ exponent)))
      ↔ IsExactPower base exponent := by
  rw [defaultPower_natCast]
  split_ifs with hexact
  · exact ⟨fun _ => hexact, fun _ => rfl⟩
  · refine ⟨fun h => absurd (Option.some.inj h) ?_, fun h => absurd h hexact⟩
    intro h
    cases hrounded : roundedPower (.complexPower (toString base) (toString (exponent : Int))) base
        exponent with
    | ok v =>
      rw [hrounded] at h
      rw [Except.ok.inj h] at hrounded
      exact roundedPower_ne_int _ _ _ _ hrounded
    | error e =>
      rw [hrounded] at h
      cases h

/-- A power is exact just if its base is at most one in size or the estimate of its size fits.
Every power of up to 2049 bits is. -/
theorem defaultPower_exact (base : Int) (exponent : Nat) :
    (defaultPower base exponent = some (.ok (.int (base ^ exponent)))
      ↔ base.natAbs ≤ 1 ∨ bitLength base * exponent ≤ maxExactPowerBits) ∧
    (bitLength (base ^ exponent) ≤ 2049 →
      defaultPower base exponent = some (.ok (.int (base ^ exponent)))) := by
  refine ⟨defaultPower_eq_ok_iff base exponent, fun hsize => ?_⟩
  by_contra hinexact
  rw [defaultPower_eq_ok_iff] at hinexact
  exact absurd (lt_bitLength_pow_of_not_exact hinexact) (not_lt.2 hsize)

/-- The power 2 ^ 2049 has 2050 bits, which is well within the bound, and is not exact: the
estimate of its size is 4098. -/
theorem defaultPower_inexact_within_bound :
    bitLength (2 ^ 2049) ≤ maxExactPowerBits ∧
      defaultPower 2 2049 ≠ some (.ok (.int (2 ^ 2049))) := by
  constructor
  · rw [bitLength_two_pow]
    decide
  · exact mt (defaultPower_eq_ok_iff 2 2049).1 (by decide)

end OperatorFunctions

end Reckon
