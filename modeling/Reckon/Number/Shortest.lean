import Reckon.Number.Binary64
/-
  The shortest decimal that reads back as a given binary value. All reals of an interval round
  to the value; for one, two, … digits the two neighbours of the value on that decimal grid are
  tried, and the first grid with a neighbour in the interval wins. Of two neighbours in it the
  nearer is taken, and in a tie the even one.
-/
namespace Reckon

/-- The decimal `0.d₁d₂… · 10 ^ point`. -/
structure Decimal where
  digits : List Char
  point : Int
  deriving DecidableEq, Repr

namespace Shortest

/-- A value and the interval of reals that round to it, in units of one grid: all three are
quotients over `den`. -/
structure Cell where
  low : Nat
  value : Nat
  high : Nat
  den : Nat
  /-- Whether the ends of the interval round to the value, too. -/
  closed : Bool

/-- The interval around `m · 2 ^ e` in quarters of the last place. Below a power of two the
values lie twice as close, so the interval is shorter on that side. -/
def cell (m : Nat) (e : Int) : Cell :=
  let low := if m == Binary64.leadingBit && e != -1074 then 4 * m - 1 else 4 * m - 2
  let s := e - 2
  let up := if 0 ≤ s then 1 <<< s.toNat else 1
  let down := if 0 ≤ s then 1 else 1 <<< (-s).toNat
  ⟨low * up, 4 * m * up, (4 * m + 2) * up, down, m % 2 == 0⟩

/-- The same interval in units of `10 ^ t`. -/
def Cell.inUnits (c : Cell) (t : Int) : Cell :=
  if 0 ≤ t then { c with den := c.den * Nat.pow 10 t.toNat }
  else
    let k := Nat.pow 10 (-t).toNat
    { c with low := c.low * k, value := c.value * k, high := c.high * k }

/-- Whether the grid point `k` rounds to the value. -/
def Cell.holds (c : Cell) (k : Nat) : Bool :=
  if c.closed then c.low ≤ k * c.den && k * c.den ≤ c.high
  else c.low < k * c.den && k * c.den < c.high

/-- The grid point to write for the value, if one of its two neighbours rounds to it. -/
def Cell.pick? (c : Cell) : Option Nat :=
  let below := c.value / c.den
  let above := below + 1
  match c.holds below, c.holds above with
  | true, true => some (Binary64.divNearest c.value c.den)
  | true, false => some below
  | false, true => some above
  | false, false => none

/-- Whether the value is below `10 ^ p`. -/
def Cell.isBelow (c : Cell) (p : Int) : Bool :=
  let u := c.inUnits p
  u.value < u.den

/-- The least `p` with the value below `10 ^ p`, from an estimate that is at most two too low. -/
def decimalPoint (c : Cell) (estimate : Int) : Int :=
  if c.isBelow estimate then estimate
  else if c.isBelow (estimate + 1) then estimate + 1
  else estimate + 2

/-- Tries the grids with `n`, `n + 1`, … digits, `tries` of them. -/
def search (c : Cell) (p : Int) : Nat → Nat → Option (Nat × Nat)
  | 0, _ => none
  | tries + 1, n =>
    match (c.inUnits (p - n)).pick? with
    | some k => some (k, n)
    | none => search c p tries (n + 1)

def dropTrailingZeros (ds : List Char) : List Char :=
  (ds.reverse.dropWhile (· == '0')).reverse

/-- The least `p` with `m · 2 ^ e` below `10 ^ p`, for a positive `m` of at most 53 bits. -/
def point (m : Nat) (e : Int) : Int :=
  decimalPoint (cell m e) ((((m.log2 : Int) + e) * 30103).fdiv 100000)

/-- The shortest decimal of `m · 2 ^ e`, for a positive `m` of at most 53 bits, without trailing
zeros. Seventeen digits are always enough. -/
def decimal (m : Nat) (e : Int) : Decimal :=
  let c := cell m e
  let p := point m e
  match search c p 17 1 with
  | some (k, n) =>
    let ds := Nat.toDigits 10 k
    ⟨dropTrailingZeros ds, p + (ds.length - n)⟩
  | none => ⟨['0'], 1⟩

end Shortest

end Reckon
