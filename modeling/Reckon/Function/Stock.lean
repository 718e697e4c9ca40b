import Reckon.Function.Builtin
import Reckon.Function.Operators
/-
  Ready-made functions that a settings document can name: arithmetic in various arrangements,
  functions with fixed and with optional parameters, and functions that answer the same
  whatever they get. A named function with a fixed list of parameters refuses other numbers of
  arguments.
-/
namespace Reckon.Stock

/-- A function with a fixed list of parameters, the last `optional` of which may be left out. -/
def fixed (name : String) (parameters : List String) (optional : Nat)
    (f : List Value → Except Fault Value) : Function :=
  let signature : Signature := ⟨name, parameters, optional⟩
  .native fun args =>
    if parameters.length < args.length then
      .error (.fault (.tooManyArguments signature args.length))
    else if args.length < parameters.length - optional then
      .error (.fault (.missingArguments signature args.length))
    else (f args).mapError .fault

/-- A function of `x`. -/
def one (name : String) (f : Value → Except Fault Value) : Function :=
  fixed name ["x"] 0 fun
    | [x] => f x
    | _ => .ok .none

/-- A function of `a` and `b`. -/
def two (name : String) (f : Value → Value → Except Fault Value) : Function :=
  fixed name ["a", "b"] 0 fun
    | [a, b] => f a b
    | _ => .ok .none

/-- A function that answers the same whatever it gets. -/
def const (v : Value) : Function := .native fun _ => .ok v

/-- A function that fails whatever it gets. -/
def failing (f : Failure) : Function := .native fun _ => .error f

/-- The sum of any number of arguments. -/
def total (args : List Value) : Except Fault Value := args.foldlM Value.add (.int 0)

/-- `10 a + b`, where `b` is seven unless it is given. -/
def tenfoldPlus : List Value → Except Fault Value
  | [a] => do (← a.mul (.int 10)).add (.int 7)
  | [a, b] => do (← a.mul (.int 10)).add b
  | _ => .ok .none

/-- `100 a + 10 b + c`. -/
def threeDigits : List Value → Except Fault Value
  | [a, b, c] => do
    let hundreds ← a.mul (.int 100)
    let tens ← b.mul (.int 10)
    (← hundreds.add tens).add c
  | _ => .ok .none

/-- The ready-made functions by name. -/
def all : Table Function :=
  [("add", two "add" Value.add),
    ("sub", two "sub" Value.sub),
    ("mul", two "mul" Value.mul),
    ("div", two "div" Value.div),
    ("mod", two "mod" Value.mod),
    ("rsub", two "rsub" fun a b => b.sub a),
    ("parity", two "parity" fun a b => do (← a.add b).mod (.int 2)),
    ("twice_sum", two "twice_sum" fun a b => do Value.mul (.int 2) (← a.add b)),
    ("twice_div", two "twice_div" fun a b => do Value.mul (.int 2) (← a.div b)),
    ("first", two "first" fun a _ => .ok a),
    ("second", two "second" fun _ b => .ok b),
    ("neg", one "neg" Value.neg),
    ("ident", one "ident" .ok),
    ("double", one "double" (Value.mul · (.int 2))),
    ("half", one "half" (Value.div · (.int 2))),
    ("triple", one "triple" (Value.mul · (.int 3))),
    ("tenfold", one "tenfold" (Value.mul · (.int 10))),
    ("zero", fixed "zero" [] 0 fun _ => .ok (.int 0)),
    ("digits3", fixed "digits3" ["a", "b", "c"] 0 threeDigits),
    ("opt", fixed "opt" ["a", "b"] 1 tenfoldPlus),
    ("count", .native fun args => .ok (.int args.length)),
    ("total", .native fun args => (total args).mapError .fault),
    ("none", const .none),
    ("text", const (.str "s")),
    ("yes", const (.bool true))]

/-- The ready-made function of a name. -/
def find? (name : String) : Option Function := Table.find? all name

end Reckon.Stock
