import Reckon.Number.Reading
import Reckon.Value
/-
  The values of number literals. A literal that starts with `0x` is a whole number in base
  sixteen; one with a point or an exponent is a floating point number; any other is a whole
  number in base ten.
-/
namespace Reckon.Literal

/-- The part of a long text that a message shows. -/
def shownInt (text : String) : String := String.ofList ((Quoted.encode text).toList.take 200)

/-- The fault for a text that is no whole number in a base. -/
def intFault (base : Nat) (text : String) : Reading.Problem → Fault
  | .malformed => .invalidInt base (shownInt text)
  | .tooManyDigits n => .tooManyDigits Reading.maxDigits n

/-- Whether a literal is written in base sixteen. -/
def isHex : List Char → Bool
  | '0' :: c :: _ => c == 'x' || c == 'X'
  | _ => false

/-- Whether a literal has a point or an exponent. -/
def isFractional (cs : List Char) : Bool := cs.any fun c => c == '.' || c == 'e' || c == 'E'

/-- The value of a literal. -/
def value (text : String) : Except Fault Value :=
  if isHex text.toList then
    match Reading.hexInt text with
    | .ok i => .ok (.int i)
    | .error p => .error (intFault 16 text p)
  else if isFractional text.toList then
    match Reading.decimalFloat text with
    | .ok x => .ok (.float x)
    | .error _ => .error (.invalidFloat (Quoted.encode text))
  else
    match Reading.decimalInt text with
    | .ok i => .ok (.int i)
    | .error p => .error (intFault 10 text p)

end Reckon.Literal
