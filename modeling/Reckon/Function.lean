import Reckon.Error
import Reckon.Expr
import Reckon.Precedence
import Reckon.Token
import Reckon.Value
/-
  What expressions can call. A function is given by what it computes, or it records that it was
  called, or it performs steps on the engine that is evaluating the expression that calls it.
  Steps are the uses of an engine; they can bring in functions, so the two types refer to each
  other. A plain value can stand in a function table, too: it cannot be called.
-/
namespace Reckon

mutual
/-- An entry of a function table. -/
inductive Function where
  /-- A function whose answer depends on its arguments alone. -/
  | native (run : List Value → Except Failure Value)
  /-- A function that leaves a mark with its arguments, and answers the first of them. -/
  | record (tag : String)
  /-- A function that performs steps and answers what the last one answers. -/
  | script (steps : List Step)
  /-- A value, which cannot be called. -/
  | inert (value : Value)

/-- One of the two tables of operator functions, as it is given. -/
inductive Section where
  | datum (d : Datum)
  | table (entries : List (String × Function))

/-- Operator functions, as they are given: plain data, a mapping with sections under any of their
spellings, or tables ready for use. -/
inductive OperatorSource where
  | datum (d : Datum)
  | mapping (entries : List (String × Section))
  | tables (unary binary : List (String × Function))

/-- A use of an engine. -/
inductive Step where
  | solve (expression : Datum)
  | tokenize (expression : Datum)
  | parse (tokens : Option (List Token)) (expression : Option String)
  /-- Parses what the text's tokens denote. -/
  | parseText (text : Datum) (expression : Option String)
  | evaluate (expr : Expr) (expression : Option String)
  | setOperators (operators : Datum)
  | setPrecedence (levels : Precedence.Source)
  | setOperatorFunctions (functions : OperatorSource)
  | addOperator (operator : Datum) (binary : Option Function) (binaryLevel : Datum)
      (unary : Option Function) (unaryLevel : Datum) (rightAssociative : Bool)
  | addVariable (name : String) (value : Value)
  | addVariables (bindings : Option (List (String × Value)))
  | setVariables (bindings : Option (List (String × Value)))
  | removeVariable (name : String)
  | addFunction (name : String) (function : Function)
  | addFunctions (functions : Option (List (String × Function)))
  | setFunctions (functions : Option (List (String × Function)))
  | removeFunction (name : String)
  | reset (operators : Datum) (levels : Precedence.Source)
      (bindings : List (String × Value)) (operatorFunctions : OperatorSource)
      (functions : List (String × Function))
  | clearCaches
  | snapshot
  /-- A use whose settings could not be put together: it only fails. -/
  | invalid (cause : Fault)
end

instance : Inhabited Function := ⟨.inert .none⟩

instance : Inhabited Section := ⟨.datum .none⟩

instance : Inhabited OperatorSource := ⟨.datum .none⟩

instance : Inhabited Step := ⟨.snapshot⟩

/-- A call that was made. -/
structure Invocation where
  callee : Function
  args : List Value

namespace Function

/-- Whether an entry can be called. -/
def isCallable : Function → Bool
  | inert _ => false
  | _ => true

/-- The word for the type of an entry. -/
def typeName : Function → String
  | inert v => v.typeName
  | _ => "function"

/-- What a recording function answers. -/
def firstArgument : List Value → Value
  | [] => .int 0
  | v :: _ => v

/-- A call with an answer that does not depend on any state. Performing steps needs an engine;
without one, a script does nothing and answers nothing. -/
def apply : Function → List Value → Except Failure Value
  | native run, args => run args
  | record _, args => .ok (firstArgument args)
  | script _, _ => .ok .none
  | inert v, _ => .error (.fault (.notCallable v.typeName))

end Function

/-- The mark that a call leaves, if the callee records its calls. -/
def Invocation.mark? (i : Invocation) : Option (String × List Value) :=
  match i.callee with
  | .record tag => some (tag, i.args)
  | _ => none

end Reckon
