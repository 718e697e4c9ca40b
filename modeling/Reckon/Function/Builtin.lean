import Reckon.Function
import Reckon.Value.Arithmetic
/-
  The functions that every expression can call. Each checks how many arguments it gets and
  rejects a wrong number in its own name; what else goes wrong is a fault. Real functions
  answer the floating point number of the mathematical library; rounding is exact.
-/
namespace Reckon

/-- The functions that are always there. -/
inductive Builtin where
  | sin | cos | tan | asin | acos | atan
  | floor | ceil | abs
  | sqrt | log | log10 | exp
  | rad | deg
  deriving DecidableEq, Repr

namespace Builtin

def all : List Builtin :=
  [sin, cos, tan, asin, acos, atan, floor, ceil, abs, sqrt, log, log10, exp, rad, deg]

theorem mem_all (b : Builtin) : b ∈ all := by cases b <;> decide

/-- The name that expressions use. -/
def name : Builtin → String
  | sin => "sin" | cos => "cos" | tan => "tan"
  | asin => "asin" | acos => "acos" | atan => "atan"
  | floor => "floor" | ceil => "ceil" | abs => "abs"
  | sqrt => "sqrt" | log => "log" | log10 => "log10" | exp => "exp"
  | rad => "rad" | deg => "deg"

/-- The built-in function of a name. -/
def find? (n : String) : Option Builtin := all.find? fun b => b.name = n

/-- Half a turn in radians. -/
def pi : Float := Float.ofBits 0x400921fb54442d18

def isInfinite (x : Float) : Bool :=
  match Binary64.ofFloat x with
  | .infinite _ => true
  | _ => false

def isNaN (x : Float) : Bool :=
  match Binary64.ofFloat x with
  | .nan => true
  | _ => false

/-- The result `r` of a real function at `x`: no number means that `x` is outside its domain,
and an infinite result at a finite `x` is the fault `infinite`. -/
def checked (infinite : Fault) (x r : Float) : Except Fault Value :=
  if isNaN r && !isNaN x then .error .outsideDomain
  else if isInfinite r && !isInfinite x then .error infinite
  else .ok (.float r)

/-- A real function. -/
def real (f : Float → Float) (infinite : Fault) (v : Value) : Except Fault Value := do
  let x ← v.toReal
  checked infinite x (f x)

/-- Rounding to a whole number; `round` is given the parts of a finite number. -/
def rounded (round : Bool → Nat → Int → Int) (v : Value) : Except Fault Value :=
  match v.number? with
  | some (.int i) => .ok (.int i)
  | some (.float x) => (Value.wholePart round x).map .int
  | none => .error (.notReal v.typeName)

/-- A whole number beyond every floating point number, as `m · 2 ^ e` with `m` from one half up
to, not including, one. -/
def fractionAndExponent (n : Nat) : Float × Nat :=
  let e := n.log2 + 1
  let bits := Binary64.magnitudeBits n (1 <<< e)
  if bits = Binary64.magnitudeBits 1 1 then
    (Binary64.ofBits false (Binary64.magnitudeBits 1 2), e + 1)
  else (Binary64.ofBits false bits, e)

/-- A logarithm `f`, of whole numbers of any size. -/
def logarithm (f : Float → Float) (v : Value) : Except Fault Float :=
  match v.number? with
  | some (.int i) =>
    if i ≤ 0 then .error .outsideDomain
    else
      match Binary64.ofInt? i with
      | some x => .ok (f x)
      | none =>
        let (m, e) := fractionAndExponent i.natAbs
        .ok (f m + f 2.0 * Float.ofNat e)
  | some (.float x) =>
    match checked .outsideDomain x (f x) with
    | .ok _ => .ok (f x)
    | .error e => .error e
  | none => .error (.notReal v.typeName)

/-- A logarithm to a base: the quotient of two natural logarithms. -/
def logarithmTo (v base : Value) : Except Fault Value := do
  let x ← logarithm Float.log v
  let b ← logarithm Float.log base
  if b == 0 then .error .floatDivisionByZero else .ok (.float (x / b))

/-- What a function of one argument answers. -/
def applyTo : Builtin → Value → Except Fault Value
  | sin, v => real Float.sin .outsideDomain v
  | cos, v => real Float.cos .outsideDomain v
  | tan, v => real Float.tan .outsideDomain v
  | asin, v => real Float.asin .outsideDomain v
  | acos, v => real Float.acos .outsideDomain v
  | atan, v => real Float.atan .outsideDomain v
  | floor, v => rounded Binary64.floorParts v
  | ceil, v => rounded Binary64.ceilParts v
  | abs, v => v.abs
  | sqrt, v => real Float.sqrt .outsideDomain v
  | log, v => (logarithm Float.log v).map .float
  | log10, v => (logarithm Float.log10 v).map .float
  | exp, v => real Float.exp .resultTooLarge v
  | rad, v => v.toReal.map fun x => .float (x * (pi / 180.0))
  | deg, v => v.toReal.map fun x => .float (x * (180.0 / pi))

/-- How many arguments a function takes, in words. -/
def arity : Builtin → String
  | log => "1-2"
  | _ => "1"

/-- The error for a wrong number of arguments. It does not know its place. -/
def wrongCount (b : Builtin) (given : Nat) : Failure :=
  .error { problem := .rejected b.name
             ("expected " ++ b.arity ++ " argument(s), got " ++ toString given) }

/-- A fault, if it is one, as a failure. -/
def lift (r : Except Fault Value) : Except Failure Value := r.mapError .fault

def run (b : Builtin) (args : List Value) : Except Failure Value :=
  match b, args with
  | b, [v] => lift (b.applyTo v)
  | .log, [v, base] => lift (logarithmTo v base)
  | b, args => .error (b.wrongCount args.length)

/-- A built-in function as an entry of a table. -/
def function (b : Builtin) : Function := .native b.run

end Builtin

end Reckon
