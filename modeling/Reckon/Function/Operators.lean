import Reckon.Function
import Reckon.Value.Power
/-
  What operators compute: a table for operators before an operand and one for operators between
  two. Everything in a table can be called.
-/
namespace Reckon

/-- The functions of operators. -/
structure OperatorFunctions where
  unary : Table Function
  binary : Table Function

namespace OperatorFunctions

/-- An operator between two operands as a function of exactly two arguments. -/
def ofBinary (name : String) (f : Value → Value → Except Fault Value) : Function :=
  .native fun
    | [a, b] => (f a b).mapError .fault
    | args => .error (.fault (.exactArguments name 2 args.length))

/-- The sign change as a function of exactly one argument. -/
def negation : Function :=
  .native fun
    | [a] => a.neg.mapError .fault
    | args => .error (.fault (.oneArgument "_operator.neg" args.length))

def powerSignature : Signature := ⟨"_power", ["left", "right"], 0⟩

/-- The power as a function of exactly two arguments. -/
def power : Function :=
  .native fun
    | [a, b] => (a.pow b).mapError .fault
    | args =>
      .error (.fault (if 2 < args.length then .tooManyArguments powerSignature args.length
        else .missingArguments powerSignature args.length))

/-- The functions in use unless others are given. -/
def default : OperatorFunctions where
  unary := [("-", negation)]
  binary := [("+", ofBinary "add" Value.add), ("-", ofBinary "sub" Value.sub),
    ("*", ofBinary "mul" Value.mul), ("/", ofBinary "truediv" Value.div),
    ("%", ofBinary "mod" Value.mod), ("^", power)]

/-- Refuses a table with an entry that cannot be called. -/
def checkTable (arity : String) : Table Function → Except Fault Unit
  | [] => .ok ()
  | (op, f) :: t =>
    if f.isCallable then checkTable arity t
    else .error (.operatorNotCallable arity (Quoted.encode op) f.typeName)

/-- Puts two tables together. -/
def ofTables (unary binary : Table Function) : Except Fault OperatorFunctions := do
  checkTable "Unary" unary
  checkTable "Binary" binary
  .ok ⟨unary, binary⟩

/-- What a section holds: functions under their operators, or plain data under keys. -/
inductive Contents where
  | functions (t : Table Function)
  | data (entries : List (Datum × Datum))

/-- The contents of a section. -/
def contents : Section → Except Fault Contents
  | .table entries => .ok (.functions (.ofEntries entries))
  | .datum d => d.entries.map .data

/-- The table that a section holds. Plain data cannot be called, so only no data are a table. -/
def tableOf (arity : String) : Contents → Except Fault (Table Function)
  | .functions t => do
    checkTable arity t
    .ok t
  | .data [] => .ok []
  | .data ((key, d) :: _) => .error (.operatorNotCallable arity key.text d.typeName)

/-- The section under the first of several spellings that is there. -/
def sectionOf (keys : List String) (entries : List (String × Section)) : Section :=
  ((keys.filterMap fun k => entries.lookup k).head?).getD (.datum .none)

/-- Sections put together directly. Both are opened before either is checked. -/
def direct (unary binary : Section) : Except Fault OperatorFunctions := do
  let unary ← contents unary
  let binary ← contents binary
  let unary ← tableOf "Unary" unary
  let binary ← tableOf "Binary" binary
  .ok ⟨unary, binary⟩

/-- Sections of a mapping, under any of their spellings. -/
def ofMapping (entries : List (String × Section)) : Except Fault OperatorFunctions :=
  direct (sectionOf Precedence.unaryKeys entries) (sectionOf Precedence.binaryKeys entries)

/-- Reads operator functions; nothing stands for the default ones. -/
def ofSource : OperatorSource → Except Fault OperatorFunctions
  | .datum .none => .ok default
  | .datum (.dict entries) => ofMapping (entries.map fun e => (e.1, .datum e.2))
  | .datum d => .error (.operatorFunctionsNotMapping d.typeName)
  | .mapping entries => ofMapping entries
  | .tables unary binary => ofTables unary binary

end OperatorFunctions

/-- Operator functions as a source that is ready for use. -/
def OperatorFunctions.source (t : OperatorFunctions) : OperatorSource := .tables t.unary t.binary

/-- Whether a source stands for the default functions. -/
def OperatorSource.isStandard : OperatorSource → Bool
  | .datum .none => true
  | _ => false

end Reckon
