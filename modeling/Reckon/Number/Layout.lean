import Reckon.Number.Shortest
/-
  How numbers are written. A floating point number has the fewest digits that read back as the
  number; the layout decides where the point stands and when an exponent is written.
-/
namespace Reckon

/-- The decisions of a way to write decimals. -/
structure Layout where
  /-- The decimal points (as powers of ten above the first digit) that are written in place. -/
  lowestPoint : Int
  highestPoint : Int
  /-- What follows a whole number that is written in place. -/
  wholeEnding : List Char
  exponentMark : Char
  exponentDigits : Nat
  infinityText : List Char
  nanText : String

namespace Layout

/-- Digits with zeros in front, up to `width` of them. -/
def padded (width : Nat) (ds : List Char) : List Char :=
  List.replicate (width - ds.length) '0' ++ ds

/-- A sign and at least `exponentDigits` digits. -/
def exponent (l : Layout) (e : Int) : List Char :=
  (if e < 0 then '-' else '+') :: padded l.exponentDigits (Nat.toDigits 10 e.natAbs)

/-- Digits with the point in place. -/
def positional (l : Layout) (d : Decimal) : List Char :=
  let n := d.digits.length
  if d.point ≤ 0 then '0' :: '.' :: (List.replicate (-d.point).toNat '0' ++ d.digits)
  else if (n : Int) ≤ d.point then
    d.digits ++ List.replicate (d.point - n).toNat '0' ++ l.wholeEnding
  else d.digits.take d.point.toNat ++ '.' :: d.digits.drop d.point.toNat

/-- One digit before the point, and an exponent. -/
def scientific (l : Layout) (d : Decimal) : List Char :=
  let fraction := match d.digits.drop 1 with
    | [] => []
    | ds => '.' :: ds
  d.digits.take 1 ++ fraction ++ l.exponentMark :: l.exponent (d.point - 1)

def write (l : Layout) (d : Decimal) : List Char :=
  if l.lowestPoint ≤ d.point && d.point ≤ l.highestPoint then l.positional d else l.scientific d

/-- The text of a floating point number. The sign of zero is written, that of a number that is
none is not. -/
def float (l : Layout) (x : Float) : String :=
  match Binary64.ofFloat x with
  | .nan => l.nanText
  | .infinite negative => String.ofList (signed negative l.infinityText)
  | .finite negative m e =>
    String.ofList (signed negative
      (if m == 0 then '0' :: l.wholeEnding else l.write (Shortest.decimal m e)))
where
  signed (negative : Bool) (cs : List Char) : List Char := if negative then '-' :: cs else cs

/-- Numbers are written in place from `0.0001` up to, not including, `10 ^ 16`, whole ones with
`.0`; beyond that with an exponent of a sign and at least two digits. -/
def standard : Layout where
  lowestPoint := -3
  highestPoint := 16
  wholeEnding := ['.', '0']
  exponentMark := 'e'
  exponentDigits := 2
  infinityText := ['i', 'n', 'f']
  nanText := "nan"

end Layout

end Reckon
