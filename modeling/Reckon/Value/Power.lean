import Reckon.Value.Arithmetic
/-
  Powers. A power of whole numbers with a non-negative exponent is exact as long as an estimate
  of its size, the base's bits times the exponent, stays within a bound; beyond the bound, and
  for a negative exponent, it is computed on floating point numbers. A power that is no real
  number is refused.
-/
namespace Reckon.Value

/-- The most bits that the estimate allows for an exact power. -/
def maxExactPowerBits : Nat := 4096

/-- The number of bits of a whole number, without its sign. -/
def bitLength (i : Int) : Nat := if i = 0 then 0 else i.natAbs.log2 + 1

/-- Whether a power is taken on floating point numbers to bound the work: bases of at most one
never are. -/
def isLargePower (base exponent : Int) : Bool :=
  0 < exponent && 1 < base.natAbs && (maxExactPowerBits : Int) < bitLength base * exponent

/-- A power of a whole number. The bases whose powers stay small are told apart, so that their
exponent may be of any size. -/
def intPower (base : Int) (exponent : Nat) : Int :=
  if exponent = 0 then 1
  else if base = 0 then 0
  else if base = 1 then 1
  else if base = -1 then (if exponent % 2 = 0 then 1 else -1)
  else Int.pow base exponent

/-- Whether a floating point number is whole. -/
def isWhole (x : Float) : Bool := x == x.floor

def isFinite (x : Float) : Bool :=
  match Binary64.ofFloat x with
  | .finite .. => true
  | _ => false

/-- A power of floating point numbers; `complex` is the fault for one that is no real number. -/
def floatPower (complex : Fault) (x y : Float) : Except Fault Value :=
  if isFinite x && isFinite y then
    if x == 0 && y < 0 then .error .zeroToNegativePower
    else if x < 0 && !isWhole y then
      if isFinite (x.abs.pow y) then .error complex else .error .complexPowerOverflow
    else
      let p := x.pow y
      if isFinite p then .ok (.float p) else .error .powerOverflow
  else .ok (.float (x.pow y))

/-- A power of whole numbers by floating point arithmetic. -/
def roundedPower (complex : Fault) (base exponent : Int) : Except Fault Value := do
  let x ← (Number.int base).toFloat
  let y ← (Number.int exponent).toFloat
  floatPower complex x y

/-- A power of whole numbers. -/
def powInts (complex : Fault) (base exponent : Int) : Except Fault Value :=
  if exponent < 0 || isLargePower base exponent then roundedPower complex base exponent
  else .ok (.int (intPower base exponent.toNat))

def pow (a b : Value) : Except Fault Value :=
  let complex := Fault.complexPower a.text b.text
  onNumbers "** or pow()" (powInts complex) (floatPower complex) a b

end Reckon.Value
