import Reckon.Value.Template
/-
  Arithmetic on values. Two whole numbers stay whole under sum, difference, product and
  remainder; a quotient is always a floating point number, the one nearest to the exact
  quotient. A whole number that meets a floating point number is rounded first. Texts can be
  joined, repeated and filled with a value.
-/
namespace Reckon.Value

/-- The value that is no number. -/
def notANumber : Float := Float.ofBits 0x7ff8000000000000

/-- An operation given on whole numbers and on floating point numbers. -/
def onNumbers (operator : String) (ints : Int → Int → Except Fault Value)
    (floats : Float → Float → Except Fault Value) (a b : Value) : Except Fault Value :=
  match a.number?, b.number? with
  | some (.int i), some (.int j) => ints i j
  | some x, some y => do
    let x ← x.toFloat
    let y ← y.toFloat
    floats x y
  | _, _ => .error (.unsupportedOperands operator a.typeName b.typeName)

def add (a b : Value) : Except Fault Value :=
  match a, b with
  | .str s, .str t => .ok (.str (s ++ t))
  | .str _, _ => .error (.cannotConcatenate b.typeName)
  | _, _ =>
    onNumbers "+" (fun i j => .ok (.int (i + j))) (fun x y => .ok (.float (x + y))) a b

def sub : Value → Value → Except Fault Value :=
  onNumbers "-" (fun i j => .ok (.int (i - j))) (fun x y => .ok (.float (x - y)))

/-- A text `n` times over; not at all when `n` is negative. -/
def repeatText (s : String) (n : Int) : String :=
  String.ofList (List.replicate n.toNat s.toList).flatten

/-- A text `n` times over, if `n` is small enough for a count and there is room for the result. -/
def repeated (s : String) (n : Int) : Except Fault Value :=
  let length : Int := s.toList.length
  if n < -maxIndex - 1 || maxIndex < n then .error .countTooLarge
  else if n ≤ 0 || length = 0 then .ok (.str "")
  else if maxIndex < length * n then .error .textTooLong
  else if maxTextLength < length * n then .error .outOfMemory
  else .ok (.str (repeatText s n))

/-- A text times a value: only a whole number repeats it. -/
def repeatBy (s : String) (count : Value) : Except Fault Value :=
  match count.number? with
  | some (.int n) => repeated s n
  | _ => .error (.cannotRepeat count.typeName)

def mul (a b : Value) : Except Fault Value :=
  match a, b with
  | .str s, _ => repeatBy s b
  | _, .str t => repeatBy t a
  | _, _ =>
    onNumbers "*" (fun i j => .ok (.int (i * j))) (fun x y => .ok (.float (x * y))) a b

/-- The quotient of whole numbers: the sign is that of the exact quotient, for zero too when
exactly one of the two is negative. -/
def divInts (i j : Int) : Except Fault Value :=
  if j = 0 then .error .divisionByZero
  else
    match Binary64.nearest? ((i < 0) != (j < 0)) i.natAbs j.natAbs with
    | some x => .ok (.float x)
    | Option.none => .error .quotientTooLarge

def div : Value → Value → Except Fault Value :=
  onNumbers "/" divInts fun x y =>
    if y == 0 then .error .floatDivisionByZero else .ok (.float (x / y))

/-- A remainder moved to the sign of the divisor; a zero takes the divisor's sign, too. -/
def withSignOf (r divisor : Float) : Float :=
  if r == 0 then
    match Binary64.ofFloat divisor with
    | .finite negative _ _ => Binary64.zero negative
    | .infinite negative => Binary64.zero negative
    | .nan => Binary64.zero false
  else if (divisor < 0) != (r < 0) then r + divisor
  else r

/-- The remainder of a floating point division, computed exactly and rounded at most once. -/
def floatRemainder (x y : Float) : Float :=
  match Binary64.ofFloat x, Binary64.ofFloat y with
  | .finite negative m e, .finite _ n f =>
    let (r, g) := Binary64.remainderParts m e n f
    withSignOf (Binary64.ofParts negative r g) y
  | .finite .., .infinite _ => withSignOf x y
  | _, _ => notANumber

/-- The remainder has the sign of the divisor. A text is no number but a template, which the value
on its right fills. -/
def mod (a b : Value) : Except Fault Value :=
  match a with
  | .str s => (Template.format s b).map .str
  | _ =>
    onNumbers "%"
      (fun i j => if j = 0 then .error .moduloByZero else .ok (.int (i.fmod j)))
      (fun x y =>
        if y == 0 then .error .floatModuloByZero else .ok (.float (floatRemainder x y))) a b

def neg (a : Value) : Except Fault Value :=
  match a.number? with
  | some (.int i) => .ok (.int (-i))
  | some (.float x) => .ok (.float (-x))
  | Option.none => .error (.unsupportedOperand "unary -" a.typeName)

def abs (a : Value) : Except Fault Value :=
  match a.number? with
  | some (.int i) => .ok (.int i.natAbs)
  | some (.float x) => .ok (.float x.abs)
  | Option.none => .error (.unsupportedOperand "abs()" a.typeName)

end Reckon.Value
