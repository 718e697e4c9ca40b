import Reckon.Number.Layout
/-
  Floating point numbers with as many digits as are asked for, behind the point or in all. They
  are those of the decimal with so many digits that is nearest to the number; of two that are
  equally near, the last digit is even. From some digit on there are only zeros, so these are
  counted and not computed.
-/
namespace Reckon

/-- A number without its sign, as it is written: digits before and behind the point, more zeros
behind these, and an exponent. -/
structure Written where
  whole : List Char
  fraction : List Char
  zeros : Nat
  exponent : List Char

namespace Places

/-- No number has more digits than this without the zeros at its end, neither behind the point
nor in all. -/
def mostDigits : Nat := 1074

/-- `m · 2 ^ e` with `places` digits behind the point. -/
def fixed (m : Nat) (e : Int) (places : Nat) : Written :=
  let exact := min places mostDigits
  let c := (Shortest.cell m e).inUnits (-exact)
  let ds := Layout.padded (exact + 1) (Nat.toDigits 10 (Binary64.divNearest c.value c.den))
  let point := ds.length - exact
  ⟨ds.take point, ds.drop point, places - exact, []⟩

/-- The decimal of `n` digits nearest to `m · 2 ^ e`. -/
def significant (m : Nat) (e : Int) (n : Nat) : Decimal :=
  if m = 0 then ⟨List.replicate n '0', 1⟩
  else
    let p := Shortest.point m e
    let c := (Shortest.cell m e).inUnits (p - n)
    -- Rounding up to a power of ten gives one digit more, a zero.
    let ds := Nat.toDigits 10 (Binary64.divNearest c.value c.den)
    ⟨ds.take n, p + (ds.length - n)⟩

/-- A decimal with one digit before the point and an exponent. -/
def withExponent (d : Decimal) (zeros : Nat) : Written :=
  ⟨d.digits.take 1, d.digits.drop 1, zeros, 'e' :: Layout.standard.exponent (d.point - 1)⟩

/-- A decimal with the point in place, if the point is not behind the last digit. -/
def inPlace (d : Decimal) (zeros : Nat) : Written :=
  if d.point ≤ 0 then ⟨['0'], List.replicate (-d.point).toNat '0' ++ d.digits, zeros, []⟩
  else ⟨d.digits.take d.point.toNat, d.digits.drop d.point.toNat, zeros, []⟩

/-- `m · 2 ^ e` with an exponent and `places` digits behind the point. -/
def scientific (m : Nat) (e : Int) (places : Nat) : Written :=
  let exact := min (places + 1) mostDigits
  withExponent (significant m e exact) (places + 1 - exact)

/-- `m · 2 ^ e` with `n` digits in all, with an exponent if it is below `0.0001` or has more digits
before the point. The zeros at the end of the fraction are written only if `keepZeros` is set. -/
def general (m : Nat) (e : Int) (n : Nat) (keepZeros : Bool) : Written :=
  let exact := min n mostDigits
  let d := significant m e exact
  let zeros := n - exact
  let w := if -4 < d.point && d.point ≤ n then inPlace d zeros else withExponent d zeros
  if keepZeros then w else { w with fraction := Shortest.dropTrailingZeros w.fraction, zeros := 0 }

end Places

end Reckon
