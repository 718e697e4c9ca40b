import Reckon.Expr.Evaluation
/-
  A calculator keeps an expression and a scope between calls.
-/
namespace Reckon

/-- A calculator. -/
structure Calculator where
  expr : Option Expr := none
  scope : Scope := {}

namespace Calculator

/-- The expression and the variables are taken first, the operator functions checked then; what
was loaded before stays in place where they are refused. -/
def reset (c : Calculator) (expr : Option Expr) (bindings : Table Value)
    (operators : OperatorSource) (functions : Table Function) (source : Option String) :
    Except Fault Unit × Calculator :=
  let c := { c with expr, scope := { c.scope with bindings } }
  match OperatorFunctions.ofSource operators with
  | .error f => (.error f, c)
  | .ok operators => (.ok (), { c with scope := ⟨bindings, operators, functions, source⟩ })

/-- A loaded calculator. -/
def create (expr : Option Expr) (bindings : Table Value) (operators : OperatorSource)
    (functions : Table Function) (source : Option String) : Except Fault Calculator :=
  match reset {} expr bindings operators functions source with
  | (.ok (), c) => .ok c
  | (.error f, _) => .error f

/-- Evaluates a given expression, or else the loaded one. -/
def evaluate (c : Calculator) (expr : Option Expr) : Traced Value :=
  match expr, c.expr with
  | some e, _ => e.evaluate c.scope
  | none, some e => e.evaluate c.scope
  | none, none => .fail (.fault .noExpressionToEvaluate)

end Calculator

/-- Evaluates an expression with operator functions that are still to be read. -/
def Expr.evaluateWith (e : Expr) (bindings : Table Value) (operators : OperatorSource)
    (functions : Table Function) (source : Option String) : Traced Value :=
  match Calculator.create (some e) bindings operators functions source with
  | .error f => .fail (.fault f)
  | .ok c => c.evaluate none

end Reckon
