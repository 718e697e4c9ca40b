/-
  Binary floating point with 64 bits, seen through exact whole-number arithmetic: the parts of
  a value, the value nearest to a quotient of naturals (a half goes to the even neighbour), and
  the exact remainder of a division.
-/
namespace Reckon

/-- A 64-bit floating point value by its parts: `± significand · 2 ^ exponent`. -/
inductive Binary64 where
  | finite (negative : Bool) (significand : Nat) (exponent : Int)
  | infinite (negative : Bool)
  | nan
  deriving DecidableEq, Repr

namespace Binary64

/-- One step of the exponent field, which is also the leading bit of a full significand. -/
def leadingBit : Nat := 1 <<< 52

/-- The bit that holds the sign. -/
def signBit : Nat := 1 <<< 63

/-- The parts of a floating point number. -/
def ofFloat (x : Float) : Binary64 :=
  let bits : Nat := x.toBits.toNat
  let negative := bits / signBit == 1
  let biased : Nat := bits / leadingBit % 2048
  let fraction : Nat := bits % leadingBit
  if biased == 2047 then
    if fraction == 0 then .infinite negative else .nan
  else if biased == 0 then .finite negative fraction (-1074)
  else .finite negative (leadingBit + fraction) ((biased : Int) - 1075)

/-- The quotient of two naturals, rounded to the nearest natural; a half goes to the even one. -/
def divNearest (n d : Nat) : Nat :=
  let q := n / d
  let r := n % d
  if 2 * r < d then q
  else if d < 2 * r then q + 1
  else if q % 2 == 0 then q
  else q + 1

/-- `num / (den · 2 ^ u)` as a quotient of naturals. -/
def scaled (num den : Nat) (u : Int) : Nat × Nat :=
  if 0 ≤ u then (num, den <<< u.toNat) else (num <<< (-u).toNat, den)

/-- The exponent of the last place of the value nearest to `num / den`: 52 below that of the
leading bit, but never below that of the smallest positive value. -/
def lastPlace (num den : Nat) : Int :=
  let k : Int := (num.log2 : Int) - den.log2
  let (n, d) := scaled num den k
  let leading := if d ≤ n then k else k - 1
  max (leading - 52) (-1074)

/-- The bits of the value nearest to `num / den`, without sign. They are read off the rounded
multiple of the last place: the step from a full significand to the next power of two is a
carry into the exponent field. From `infinityBits` on the quotient is out of range. -/
def magnitudeBits (num den : Nat) : Nat :=
  if num == 0 then 0
  else
    let u := lastPlace num den
    let (n, d) := scaled num den u
    (u + 1074).toNat * leadingBit + divNearest n d

/-- The bits of positive infinity. -/
def infinityBits : Nat := 2047 * leadingBit

/-- The number with the given sign and magnitude bits. -/
def ofBits (negative : Bool) (magnitude : Nat) : Float :=
  Float.ofBits (UInt64.ofNat (magnitude + if negative then signBit else 0))

def zero (negative : Bool) : Float := ofBits negative 0

def infinity (negative : Bool) : Float := ofBits negative infinityBits

/-- The value nearest to `± num / den`, or nothing when it is out of range. -/
def nearest? (negative : Bool) (num den : Nat) : Option Float :=
  let bits := magnitudeBits num den
  if bits < infinityBits then some (ofBits negative bits) else none

/-- The value nearest to a whole number, or nothing when it is out of range. -/
def ofInt? (i : Int) : Option Float := nearest? (i < 0) i.natAbs 1

/-- The value nearest to `± mantissa · 10 ^ exponent`; out of range it is infinite. The length of
the mantissa bounds the exponents that need exact arithmetic. -/
def ofDecimal (negative : Bool) (mantissa : Nat) (exponent : Int) : Float :=
  let size : Int := (Nat.toDigits 10 mantissa).length + exponent
  if mantissa == 0 || size < -400 then zero negative
  else if 400 < size then infinity negative
  else
    let parts :=
      if 0 ≤ exponent then (mantissa * Nat.pow 10 exponent.toNat, 1)
      else (mantissa, Nat.pow 10 (-exponent).toNat)
    (nearest? negative parts.1 parts.2).getD (infinity negative)

/-- The whole part of a finite value, rounded down. -/
def floorParts (negative : Bool) (m : Nat) (e : Int) : Int :=
  let value : Int := if negative then -(m : Int) else m
  if 0 ≤ e then value <<< e.toNat else value >>> (-e).toNat

/-- The whole part of a finite value, rounded up. -/
def ceilParts (negative : Bool) (m : Nat) (e : Int) : Int := -floorParts (!negative) m e

/-- The whole part of a finite value, rounded towards zero. -/
def truncParts (negative : Bool) (m : Nat) (e : Int) : Int :=
  if negative then ceilParts negative m e else floorParts negative m e

/-- What is left of `m · 2 ^ e` after taking away `n · 2 ^ f` as often as it fits: a multiple of
the smaller of the two last places, which the result names. -/
def remainderParts (m : Nat) (e : Int) (n : Nat) (f : Int) : Nat × Int :=
  let g := min e f
  ((m <<< (e - g).toNat) % (n <<< (f - g).toNat), g)

/-- `± m · 2 ^ e`, for values that need no rounding. -/
def ofParts (negative : Bool) (m : Nat) (e : Int) : Float :=
  let parts := if 0 ≤ e then (m <<< e.toNat, 1) else (m, 1 <<< (-e).toNat)
  ofBits negative (magnitudeBits parts.1 parts.2)

/-- Compares a whole number with `± m · 2 ^ e`. -/
def compareInt (i : Int) (negative : Bool) (m : Nat) (e : Int) : Ordering :=
  let value : Int := if negative then -(m : Int) else m
  if 0 ≤ e then compare i (value <<< e.toNat) else compare (i <<< (-e).toNat) value

end Binary64

end Reckon
