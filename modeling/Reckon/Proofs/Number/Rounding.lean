import Mathlib
import Reckon.Number.Binary64
/-
  Whole numbers as floating point numbers. A floating point number is made from bits, and its parts
  are read off the same bits (`Binary64.ofFloat_ofBits`); without the sign bit it is the magnitude
  (`Binary64.abs_ofBits`). A whole number is rounded to the nearest multiple of its last place, but
  never below the power of two at its leading bit, as that needs no rounding
  (`Binary64.le_magnitudeBits`). So the real number that a rounded whole number stands for
  (`Binary64.value`) is at least that power of two (`Binary64.two_pow_le_value`).
-/
namespace Reckon.Binary64

open Float.Model Float.Model.UnpackedFloat

/-! ## Bits -/

theorem leadingBit_eq : leadingBit = 2 ^ 52 := by decide

theorem signBit_eq : signBit = 2 ^ 63 := by decide

theorem infinityBits_eq : infinityBits = 2047 * 2 ^ 52 := by decide

/-- The bits of a number with a sign and a magnitude. -/
def word (negative : Bool) (magnitude : Nat) : UInt64 :=
  UInt64.ofNat (magnitude + if negative then signBit else 0)

theorem toNat_word (negative : Bool) {magnitude : Nat} (h : magnitude < infinityBits) :
    (word negative magnitude).toNat = magnitude + if negative then signBit else 0 := by
  refine UInt64.toNat_ofNat_of_lt' ?_
  rw [infinityBits_eq] at h
  rw [signBit_eq, UInt64.size]
  split_ifs
  · omega
  · omega

/-! The fields of a word, in the library's terms and as quotients and remainders. -/

theorem toNat_unpackExponent (w : UInt64) :
    (@unpackExponent Format.binary64 w.toBitVec).toNat = w.toNat / leadingBit % 2048 := by
  rw [unpackExponent_def, leadingBit_eq]
  exact (BitVec.extractLsb'_toNat ..).trans (by rw [Nat.shiftRight_eq_div_pow]; rfl)

theorem toNat_unpackMantissa (w : UInt64) :
    (@unpackMantissa Format.binary64 w.toBitVec).toNat = w.toNat % leadingBit := by
  rw [unpackMantissa_def, leadingBit_eq]
  exact (BitVec.extractLsb'_toNat ..).trans (by rw [Nat.shiftRight_zero]; rfl)

theorem toNat_unpackSign (w : UInt64) :
    (@unpackSign Format.binary64 w.toBitVec).toNat = w.toNat / signBit % 2 := by
  rw [unpackSign_def, signBit_eq]
  exact (BitVec.extractLsb'_toNat ..).trans (by rw [Nat.shiftRight_eq_div_pow]; rfl)

/-- A word that stands for no NaN is kept as it is. -/
theorem pack_unpack_word {w : UInt64} (h : w.toNat / leadingBit % 2048 ≠ 2047) :
    UnpackedFloat.pack Format.binary64 (unpack Format.binary64 w.toBitVec) = w.toBitVec := by
  have hnan : ¬ @isNaNBits Format.binary64 w.toBitVec = true := by
    intro hnan
    rw [← toNat_unpackExponent, (of_decide_eq_true hnan).1] at h
    exact h rfl
  have hpack := @pack_unpack Format.binary64 w.toBitVec (by decide)
  rwa [if_neg hnan] at hpack

theorem toBits_ofBits {w : UInt64} (h : w.toNat / leadingBit % 2048 ≠ 2047) :
    (Float.ofBits w).toBits = w := by
  show UInt64.ofBitVec
    (UnpackedFloat.pack Format.binary64 (unpack Format.binary64 w.toBitVec)) = w
  rw [pack_unpack_word h]

section

variable {negative : Bool} {magnitude : Nat}

theorem exponent_word (negative : Bool) (h : magnitude < infinityBits) :
    (word negative magnitude).toNat / leadingBit % 2048 = magnitude / leadingBit := by
  rw [toNat_word negative h]
  rw [infinityBits_eq] at h
  rw [leadingBit_eq, signBit_eq]
  split_ifs
  · omega
  · omega

theorem mantissa_word (negative : Bool) (h : magnitude < infinityBits) :
    (word negative magnitude).toNat % leadingBit = magnitude % leadingBit := by
  rw [toNat_word negative h, leadingBit_eq, signBit_eq]
  split_ifs
  · omega
  · omega

theorem sign_word (negative : Bool) (h : magnitude < infinityBits) :
    (word negative magnitude).toNat / signBit = if negative then 1 else 0 := by
  rw [toNat_word negative h]
  rw [infinityBits_eq] at h
  rw [signBit_eq]
  split_ifs
  · omega
  · omega

theorem exponent_word_ne (negative : Bool) (h : magnitude < infinityBits) :
    (word negative magnitude).toNat / leadingBit % 2048 ≠ 2047 := by
  rw [exponent_word negative h]
  rw [infinityBits_eq] at h
  rw [leadingBit_eq]
  omega

theorem toBits_eq_word (negative : Bool) (h : magnitude < infinityBits) :
    (ofBits negative magnitude).toBits = word negative magnitude :=
  toBits_ofBits (exponent_word_ne negative h)

/-- The parts of a number are read off the bits that it is made from. -/
theorem ofFloat_ofBits (negative : Bool) (hfull : leadingBit ≤ magnitude)
    (h : magnitude < infinityBits) :
    ofFloat (ofBits negative magnitude)
      = .finite negative (leadingBit + magnitude % leadingBit)
          ((magnitude / leadingBit : Nat) - 1075) := by
  have hsign : ((if negative then 1 else 0 : Nat) == 1) = negative := by
    cases negative with
    | true | false => rfl
  have hfinite : (magnitude / leadingBit == 2047) = false := by
    have hne := exponent_word_ne negative h
    rw [exponent_word negative h] at hne
    exact beq_false_of_ne hne
  have hnormal : (magnitude / leadingBit == 0) = false := by
    rw [leadingBit_eq] at hfull ⊢
    exact beq_false_of_ne (by omega)
  unfold ofFloat
  dsimp only
  rw [toBits_eq_word negative h, exponent_word negative h, mantissa_word negative h,
    sign_word negative h, hsign]
  simp only [hfinite, hnormal, Bool.false_eq_true, if_false]

/-- A number without its sign bit. -/
theorem abs_unpack {spec : Format} {b b' : BitVec spec.numBits}
    (hexponent : unpackExponent b = unpackExponent b')
    (hmantissa : unpackMantissa b = unpackMantissa b') (hsign : unpackSign b' = 0#1) :
    (unpack spec b).abs = unpack spec b' := by
  unfold UnpackedFloat.unpack
  simp only [hexponent, hmantissa, hsign]
  split_ifs with h₁ h₂ h₃ h₄
  · rfl
  · rfl
  · rfl
  · rfl
  · rfl

theorem abs_ofBits (negative : Bool) (h : magnitude < infinityBits) :
    (ofBits negative magnitude).abs = ofBits false magnitude := by
  have hunpack : (unpack Format.binary64 (word negative magnitude).toBitVec).abs
      = unpack Format.binary64 (word false magnitude).toBitVec := by
    refine abs_unpack (BitVec.eq_of_toNat_eq ?_) (BitVec.eq_of_toNat_eq ?_)
      (BitVec.eq_of_toNat_eq ?_)
    · rw [toNat_unpackExponent, toNat_unpackExponent, exponent_word _ h, exponent_word _ h]
    · rw [toNat_unpackMantissa, toNat_unpackMantissa, mantissa_word _ h, mantissa_word _ h]
    · rw [toNat_unpackSign, sign_word _ h]
      rfl
  refine Float.toBits_inj.1 ?_
  rw [toBits_eq_word false h]
  show UInt64.ofBitVec (UnpackedFloat.pack Format.binary64
    (unpack Format.binary64 (ofBits negative magnitude).toBits.toBitVec).abs) = _
  rw [toBits_eq_word negative h, hunpack, pack_unpack_word (exponent_word_ne false h)]

/-- A number with a magnitude is not zero. -/
theorem ofBits_beq_zero (negative : Bool) (hpos : 0 < magnitude) (h : magnitude < infinityBits) :
    (ofBits negative magnitude == 0) = false := by
  have hbits := congrArg UInt64.toNat (toBits_eq_word negative h)
  rw [toNat_word negative h, signBit_eq] at hbits
  rw [infinityBits_eq] at h
  have hzero : ∀ y : Float, ofBits negative magnitude = y →
      y.toBits.toNat = 0 ∨ y.toBits.toNat = 2 ^ 63 → False := by
    rintro y rfl hy
    rw [hbits] at hy
    cases negative with
    | true =>
      rw [if_pos rfl] at hy
      omega
    | false =>
      rw [if_neg Bool.false_ne_true] at hy
      omega
  rw [Bool.eq_false_iff]
  intro hbeq
  obtain ⟨-, -, heq | ⟨heq, -⟩ | ⟨heq, -⟩⟩ := Float.beq_iff_ne_nan_and_eq.1 hbeq
  · exact hzero 0 heq (Or.inl (by decide))
  · exact hzero 0 heq (Or.inl (by decide))
  · exact hzero (-0) heq (Or.inr (by decide))

end

/-! ## Magnitudes -/

theorem div_le_divNearest (n d : Nat) : n / d ≤ divNearest n d := by
  unfold divNearest
  dsimp only
  split_ifs with hdown hup heven
  · exact Nat.le_refl _
  · exact Nat.le_succ _
  · exact Nat.le_refl _
  · exact Nat.le_succ _

/-- The last place of a whole number is 52 below its leading bit. -/
theorem lastPlace_one {n : Nat} (hn : n ≠ 0) : lastPlace n 1 = (n.log2 : Int) - 52 := by
  have hone : Nat.log2 1 = 0 := by decide
  have hle : 1 <<< (n.log2 : Int).toNat ≤ n := by
    rw [Int.toNat_natCast, Nat.one_shiftLeft]
    exact Nat.log2_self_le hn
  simp only [lastPlace, hone, Nat.cast_zero, sub_zero, scaled, Int.natCast_nonneg, if_true, hle]
  omega

/-- A whole number counts at least a full significand in its last place. -/
theorem leadingBit_le_scaled {n : Nat} (hn : n ≠ 0) :
    leadingBit ≤ (scaled n 1 (n.log2 - 52)).1 / (scaled n 1 (n.log2 - 52)).2 := by
  have hle : 2 ^ n.log2 ≤ n := Nat.log2_self_le hn
  rw [leadingBit_eq]
  by_cases h : 52 ≤ n.log2
  · have hshift : ((n.log2 : Int) - 52).toNat = n.log2 - 52 := by omega
    rw [scaled, if_pos (by omega), hshift, Nat.one_shiftLeft,
      Nat.le_div_iff_mul_le (Nat.two_pow_pos _), ← pow_add, Nat.add_sub_cancel' h]
    exact hle
  · have hshift : (-((n.log2 : Int) - 52)).toNat = 52 - n.log2 := by omega
    rw [scaled, if_neg (by omega), hshift, Nat.div_one, Nat.shiftLeft_eq]
    calc 2 ^ 52 = 2 ^ n.log2 * 2 ^ (52 - n.log2) := by
          rw [← pow_add, Nat.add_sub_cancel' (by omega)]
      _ ≤ n * 2 ^ (52 - n.log2) := Nat.mul_le_mul_right _ hle

/-- The bits of a whole number are at least those of the power of two at its leading bit. -/
theorem le_magnitudeBits {n : Nat} (hn : n ≠ 0) :
    (n.log2 + 1023) * leadingBit ≤ magnitudeBits n 1 := by
  have hplace : ((n.log2 : Int) - 52 + 1074).toNat = n.log2 + 1022 := by omega
  have hcount := (leadingBit_le_scaled hn).trans (div_le_divNearest ..)
  simp only [magnitudeBits, lastPlace_one hn, hplace, beq_iff_eq, hn, if_false]
  calc (n.log2 + 1023) * leadingBit = (n.log2 + 1022) * leadingBit + leadingBit := by ring
    _ ≤ _ := Nat.add_le_add_left hcount _

/-- A whole number in range has the sign and at least the leading bit of what it rounds to. -/
theorem ofInt?_eq_some {i : Int} {x : Float} (hi : i ≠ 0) (hx : ofInt? i = some x) :
    ∃ magnitude, x = ofBits (i < 0) magnitude ∧
      (i.natAbs.log2 + 1023) * leadingBit ≤ magnitude ∧ magnitude < infinityBits := by
  simp only [ofInt?, nearest?, Option.ite_none_right_eq_some, Option.some.injEq] at hx
  exact ⟨_, hx.2.symm, le_magnitudeBits (Int.natAbs_ne_zero.2 hi), hx.1⟩

/-! ## Values -/

/-- The real number that a floating point number stands for; what is not finite counts as zero. -/
noncomputable def value : Binary64 → ℝ
  | .finite negative significand exponent =>
    (if negative then -1 else 1) * (significand * 2 ^ exponent)
  | .infinite _ => 0
  | .nan => 0

/-- The first power of two that is beyond all finite floating point numbers. -/
noncomputable def rangeEnd : ℝ := 2 ^ 1024

section

variable {negative : Bool} {magnitude k : Nat}

theorem leadingBit_le_of_le (hk : (k + 1023) * leadingBit ≤ magnitude) : leadingBit ≤ magnitude :=
  (Nat.le_mul_of_pos_left _ (by omega)).trans hk

/-- A number at least as large, by its bits, as a power of two is at least that power. -/
theorem two_pow_le_value (hk : (k + 1023) * leadingBit ≤ magnitude)
    (h : magnitude < infinityBits) :
    (2 : ℝ) ^ k ≤ (ofFloat (ofBits false magnitude)).value := by
  have hpos : 0 < leadingBit := by decide
  have hexponent : (k : Int) - 52 ≤ (magnitude / leadingBit : Nat) - 1075 := by
    have := (Nat.le_div_iff_mul_le hpos).2 hk
    omega
  have hsignificand : (2 : ℝ) ^ (52 : Int) ≤ (leadingBit + magnitude % leadingBit : Nat) := by
    rw [leadingBit_eq]
    exact_mod_cast Nat.le_add_right _ _
  rw [ofFloat_ofBits false (leadingBit_le_of_le hk) h, value, if_neg Bool.false_ne_true, one_mul]
  calc (2 : ℝ) ^ k = 2 ^ (52 : Int) * 2 ^ ((k : Int) - 52) := by
        rw [← zpow_add₀ two_ne_zero, add_sub_cancel, zpow_natCast]
    _ ≤ _ := mul_le_mul hsignificand (zpow_le_zpow_right₀ one_le_two hexponent)
        (zpow_nonneg zero_le_two _) (Nat.cast_nonneg _)

/-- The sign is no part of the size. -/
theorem abs_value_ofBits (negative : Bool) (hfull : leadingBit ≤ magnitude)
    (h : magnitude < infinityBits) :
    |(ofFloat (ofBits negative magnitude)).value|
      = |(ofFloat (ofBits false magnitude)).value| := by
  rw [ofFloat_ofBits negative hfull h, ofFloat_ofBits false hfull h]
  cases negative with
  | true => simp only [value, if_true, Bool.false_eq_true, if_false, neg_one_mul, abs_neg, one_mul]
  | false => rfl

end

end Reckon.Binary64
