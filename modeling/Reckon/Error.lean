import Reckon.Fault
import Reckon.Limits
import Reckon.Text.Pointer
/-
  Errors of expressions. An error says what is wrong, where in which expression, and which
  fault brought it about, if one did. `Error.message` is its text; `Error.context` shows the
  expression with a caret under the place. A failure is either such an error or a bare fault.
-/
namespace Reckon

/-- What a scan of a text can find wrong with it. -/
inductive LexicalProblem where
  | unexpectedCharacter (c : Char)
  | missingHexDigits
  | missingFractionDigits
  | missingExponentDigits
  | other (text : String)
  deriving DecidableEq, Repr

def LexicalProblem.message : LexicalProblem → String
  | .unexpectedCharacter c =>
    "Unexpected character: '" ++ String.ofList [c]
      ++ "', expected one of: whitespace, parentheses, comma, operator, number or identifier"
  | .missingHexDigits => "Invalid number: expected hexadecimal digits after '0x'"
  | .missingFractionDigits => "Invalid number: expected digits after the decimal point"
  | .missingExponentDigits => "Invalid number: expected exponent digits"
  | .other text => text

/-- One thing wrong with a text, and where. -/
structure LexicalDetail where
  problem : LexicalProblem
  position : Int
  deriving DecidableEq, Repr

def LexicalDetail.message (d : LexicalDetail) : String := d.problem.message

/-- What can be wrong with a list of tokens. -/
inductive GrammarProblem where
  | expectedExpression
  | expectedClosing
  | expectedEnd (found : String)
  | unclosedGroup (found : String)
  | expectedCommaOrClosing (found : String)
  | unexpectedToken (found : String)
  | other (text : String)
  deriving DecidableEq, Repr

def GrammarProblem.message : GrammarProblem → String
  | .expectedExpression => "Expected expression, got EOF"
  | .expectedClosing => "Expected ')', got EOF"
  | .expectedEnd t => "Expected EOF, got '" ++ t ++ "'"
  | .unclosedGroup t => "Expected ')', got '" ++ t ++ "'"
  | .expectedCommaOrClosing t => "Expected ',' or ')', got '" ++ t ++ "'"
  | .unexpectedToken t =>
    "Unexpected token: '" ++ t ++ "' in <primary>, expected constant, variable or function call"
  | .other text => text

/-- What can be wrong with an expression. -/
inductive Problem where
  /-- Everything that one scan found, under a summary. -/
  | lexical (summary : String) (details : List LexicalDetail)
  | grammar (problem : GrammarProblem)
  | undefinedVariable (name : String)
  | undefinedFunction (name : String)
  | unknownOperator (operator arity : String)
  | invalidLiteral (text : String)
  /-- A function rejected its arguments. -/
  | rejected (function reason : String)
  | operatorFailed (operator reason : String)
  | unknownNode (type : String)
  /-- Any other failure of an evaluation. -/
  | evaluation (text : String)
  | limit (name : String) (bound actual : Int)
  | nestingTooDeep (bound : Int)
  | general (text : String)
  deriving DecidableEq, Repr

namespace Problem

/-- The stage that an error belongs to. -/
inductive Stage where
  | lexical
  | grammar
  | evaluation
  | limit
  | none
  deriving DecidableEq, Repr

def stage : Problem → Stage
  | lexical .. => .lexical
  | grammar _ => .grammar
  | undefinedVariable _ | undefinedFunction _ | unknownOperator .. | invalidLiteral _
  | rejected .. | operatorFailed .. | unknownNode _ | evaluation _ => .evaluation
  | limit .. | nestingTooDeep _ => .limit
  | general _ => .none

def limitText (name : String) (bound actual : Int) : String :=
  "Limit exceeded: " ++ name ++ " (limit: " ++ toString bound ++ ", actual: " ++ toString actual
    ++ ")"

/-- A problem in a few words. -/
def summary : Problem → String
  | lexical s _ => s
  | grammar p => p.message
  | undefinedVariable name => "Variable not found: " ++ name
  | undefinedFunction name => "Unknown function: " ++ name
  | unknownOperator op arity => "Unknown " ++ arity ++ " operator: " ++ op
  | invalidLiteral text => "Invalid numeric literal: " ++ text
  | rejected f reason => f ++ ": " ++ reason
  | operatorFailed op reason => "Operator '" ++ op ++ "' failed: " ++ reason
  | unknownNode type => "Invalid node type: " ++ type
  | evaluation text => text
  | limit name bound actual => limitText name bound actual
  | nestingTooDeep bound => limitText Limit.nestingDepth.label bound (bound + 1)
  | general text => text

end Problem

/-- The word for a stage. -/
def Problem.Stage.label : Problem.Stage → String
  | .lexical => "lexical"
  | .grammar => "syntax"
  | .evaluation => "evaluation"
  | .limit => "limit"
  | .none => "expression"

/-- A problem with its place. The expression is known where the caller gave it. -/
structure Error where
  problem : Problem
  position : Option Int := none
  expression : Option String := none
  /-- The sort of the fault that the error reports, if it reports one. -/
  cause : Option Fault.Kind := none
  deriving DecidableEq, Repr

namespace Error

/-- The text of an error: a summary, and the findings of a scan when there are several. -/
def message (e : Error) : String :=
  match e.problem with
  | .lexical summary (d :: d' :: ds) =>
    summary ++ ": " ++ String.intercalate "; " ((d :: d' :: ds).map fun d =>
      d.message ++ " at position " ++ toString d.position)
  | p => p.summary

/-- The text of an error with a caret under its place; a scan's findings one after the other. -/
def context (e : Error) : String :=
  match e.problem, e.expression, e.position with
  | .lexical _ details, some text, _ =>
    String.intercalate "\n" (details.map fun d => pointAt d.message text d.position)
  | p, some text, some position => pointAt p.summary text position
  | p, _, _ => p.summary

/-- Everything that a scan of `expression` found, at least one thing: one finding is its own
summary. -/
def ofDetails (first : LexicalDetail) (others : List LexicalDetail)
    (expression : Option String) : Error :=
  let summary := match others with
    | [] => first.message
    | _ => toString (others.length + 1) ++ " lexical errors"
  { problem := .lexical summary (first :: others), position := some first.position, expression }

/-- Everything that a scan found, as a list. -/
def ofFindings (details : List LexicalDetail) (expression : Option String) :
    Except Fault Error :=
  match details with
  | [] => .error .listIndex
  | d :: ds => .ok (ofDetails d ds expression)

/-- Findings under a given summary; without findings the summary is the only one. -/
def lexical (summary : String) (position : Option Int) (expression : Option String)
    (details : Option (List LexicalDetail)) : Error :=
  let details := details.getD [⟨.other summary, position.getD 0⟩]
  { problem := .lexical summary details, position, expression }

/-- A limit that is exceeded. -/
def ofLimit (limits : Limits) (l : Limit) (actual : Int) (position : Option Int := none)
    (expression : Option String := none) : Error :=
  { problem := .limit l.label (l.bound limits) actual, position, expression }

end Error

/-- What can be thrown: an error of an expression, or a bare fault. -/
inductive Failure where
  | error (e : Error)
  | fault (f : Fault)
  deriving DecidableEq, Repr

instance : Coe Error Failure := ⟨.error⟩

instance : Coe Fault Failure := ⟨.fault⟩

/-- Checks a count against a limit. -/
def Limits.check (limits : Limits) (l : Limit) (actual : Int) (position : Option Int := none)
    (expression : Option String := none) : Except Failure Unit :=
  if actual > l.bound limits then
    throw (.error (.ofLimit limits l actual position expression))
  else pure ()

end Reckon
