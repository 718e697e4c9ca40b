import Reckon.Datum
import Reckon.Fault
/-
  The values of expressions. Arithmetic is on whole numbers of any size and on floating point
  numbers; truth values count as zero and one, and texts and the absent value can be bound to
  variables and handed to functions.
-/
namespace Reckon

/-- A value of an expression. -/
inductive Value where
  | none
  | bool (b : Bool)
  | int (i : Int)
  | float (x : Float)
  | str (s : String)

instance : Inhabited Value := ⟨.none⟩

/-- A number: a value that arithmetic works on. -/
inductive Number where
  | int (i : Int)
  | float (x : Float)

namespace Number

/-- A number as a floating point number. A whole number is rounded to the nearest one, and fails
when that is out of range. -/
def toFloat : Number → Except Fault Float
  | .int i =>
    match Binary64.ofInt? i with
    | some x => .ok x
    | Option.none => .error .intTooLarge
  | .float x => .ok x

def toValue : Number → Value
  | .int i => .int i
  | .float x => .float x

end Number

namespace Value

/-- The word for the type of a value. -/
def typeName : Value → String
  | .none => "NoneType"
  | .bool _ => "bool"
  | .int _ => "int"
  | .float _ => "float"
  | .str _ => "str"

/-- A value as a number; truth values count. -/
def number? : Value → Option Number
  | .bool b => some (.int (if b then 1 else 0))
  | .int i => some (.int i)
  | .float x => some (.float x)
  | _ => Option.none

/-- A value as text, texts without quotes. -/
def text : Value → String
  | .none => "None"
  | .bool b => Datum.boolText b
  | .int i => toString i
  | .float x => Layout.standard.float x
  | .str s => s

/-- A value as a floating point number, where a real number is needed. -/
def toReal (v : Value) : Except Fault Float :=
  match v.number? with
  | some n => n.toFloat
  | Option.none => .error (.notReal v.typeName)

/-- A floating point number rounded to a whole one; `round` is given the parts of a finite
number. -/
def wholePart (round : Bool → Nat → Int → Int) (x : Float) : Except Fault Int :=
  match Binary64.ofFloat x with
  | .finite negative m e => .ok (round negative m e)
  | .infinite _ => .error .infinityToInt
  | .nan => .error .nanToInt

/-- The most that a position in a text can be. -/
def maxIndex : Int := 9223372036854775807

/-- How many characters of a text there is room for. The number stands for the memory of the
machine, which nothing in this library knows: it decides when a text is `Fault.outOfMemory`, and
nothing else depends on it. -/
def maxTextLength : Int := 1073741824

end Value

end Reckon
