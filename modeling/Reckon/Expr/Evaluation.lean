import Reckon.Function.Builtin
import Reckon.Function.Operators
import Reckon.Value.Literal
/-
  Evaluation of expression trees, from left to right: the left operand, the right operand, then
  the operator; arguments in order, then the call. An operator or function is looked up before
  its operands are evaluated. The first failure ends the evaluation.

  Calls may have effects, on the very tables that an evaluation reads, so an evaluation runs on
  a state: it looks up in the scope that the state has at that moment. A fault of an operator or
  call becomes an error at the place of its node.
-/
namespace Reckon

/-- What names and operators stand for, and the text that errors show. -/
structure Scope where
  bindings : Table Value := []
  operators : OperatorFunctions := .default
  functions : Table Function := []
  source : Option String := none

/-- A state to evaluate on: the scope that it has, and how it is changed by a call. -/
structure Host (σ : Type) where
  scope : σ → Scope
  call : Function → List Value → EStateM Failure σ Value

/-- The function of a name: an entry of the scope comes before a built-in function. -/
def Scope.function? (s : Scope) (name : String) : Option Function :=
  match s.functions.find? name with
  | some f => some f
  | none => (Builtin.find? name).map Builtin.function

namespace Evaluation

variable {σ : Type}

/-- A failure at a node, in the scope of the moment. -/
def failAt (h : Host σ) (problem : Problem) (position : Int)
    (cause : Option Fault.Kind := none) : EStateM Failure σ Value := fun s =>
  .error (.error { problem, position := some position, expression := (h.scope s).source, cause })
    s

/-- The failure of an operator: a contained fault becomes an error at its node. -/
def operatorFailure (operator : String) (position : Int) (source : Option String) :
    Failure → Failure
  | .fault f =>
    if f.kind.isContained then
      .error { problem := .operatorFailed operator f.message, position := some position,
               expression := source, cause := some f.kind }
    else .fault f
  | e => e

/-- The failure of a call: a contained fault becomes a rejection by the function, and a
rejection that does not know its place is given the place of the call. -/
def callFailure (name : String) (position : Option Int) (source : Option String) :
    Failure → Failure
  | .fault f =>
    if f.kind.isContained then
      .error { problem := .rejected name f.message, position, expression := source,
               cause := some f.kind }
    else .fault f
  | .error e =>
    match e.problem, e.position with
    | .rejected .., none => .error { e with position, expression := source }
    | _, _ => .error e

/-- Applies an operator to its operands. -/
def applyOperator (h : Host σ) (operator : String) (position : Int) (f : Function)
    (operands : List Value) : EStateM Failure σ Value := fun s =>
  match h.call f operands s with
  | .ok v s => .ok v s
  | .error e s => .error (operatorFailure operator position (h.scope s).source e) s

/-- Calls a function. The text that errors show is taken before the call. -/
def applyFunction (h : Host σ) (name : String) (position : Int) (f : Function)
    (args : List Value) : EStateM Failure σ Value := fun s =>
  match h.call f args s with
  | .ok v s' => .ok v s'
  | .error e s' => .error (callFailure name (some position) (h.scope s).source e) s'

mutual
/-- The value of a tree. -/
def eval (h : Host σ) : Expr → EStateM Failure σ Value
  | .constant text position =>
    match Literal.value text with
    | .ok v => pure v
    | .error f => failAt h (.invalidLiteral text) position (some f.kind)
  | .var name position => do
    match (h.scope (← get)).bindings.find? name with
    | some v => pure v
    | none => failAt h (.undefinedVariable name) position
  | .unary op e position => do
    match (h.scope (← get)).operators.unary.find? op with
    | none => failAt h (.unknownOperator op "unary") position
    | some f =>
      let v ← eval h e
      applyOperator h op position f [v]
  | .binary op l r position => do
    match (h.scope (← get)).operators.binary.find? op with
    | none => failAt h (.unknownOperator op "binary") position
    | some f =>
      let a ← eval h l
      let b ← eval h r
      applyOperator h op position f [a, b]
  | .call name args position => do
    match (h.scope (← get)).function? name with
    | none => failAt h (.undefinedFunction name) position
    | some f =>
      let vs ← evalAll h args
      applyFunction h name position f vs
  | .unknown type position => failAt h (.unknownNode type) position

/-- The values of trees, in order. -/
def evalAll (h : Host σ) : List Expr → EStateM Failure σ (List Value)
  | [] => pure []
  | e :: es => do
    let v ← eval h e
    let vs ← evalAll h es
    pure (v :: vs)
end

end Evaluation

/-- A scope with the calls made so far. -/
structure Desk where
  scope : Scope
  calls : List Invocation := []

namespace Desk

/-- A call is noted and does not change the scope. -/
def call (f : Function) (args : List Value) : EStateM Failure Desk Value := fun d =>
  let d := { d with calls := d.calls ++ [⟨f, args⟩] }
  match f.apply args with
  | .ok v => .ok v d
  | .error e => .error e d

def host : Host Desk := ⟨Desk.scope, Desk.call⟩

end Desk

/-- A result with the calls that were made for it. -/
structure Traced (α : Type) where
  result : Except Failure α
  calls : List Invocation

namespace Traced

def of {α : Type} : EStateM.Result Failure Desk α → Traced α
  | .ok a d => ⟨.ok a, d.calls⟩
  | .error e d => ⟨.error e, d.calls⟩

/-- Fails without a call. -/
def fail {α : Type} (e : Failure) : Traced α := ⟨.error e, []⟩

end Traced

/-- The value of a tree in a scope. -/
def Expr.evaluate (e : Expr) (s : Scope) : Traced Value := .of (Evaluation.eval Desk.host e ⟨s, []⟩)

/-- Calls a function by name. -/
def callByName (name : String) (args : List Value) (functions : Table Function)
    (position : Option Int) (source : Option String) : Traced Value :=
  match Scope.function? { functions } name with
  | none =>
    .fail (.error { problem := .undefinedFunction name, position, expression := source })
  | some f =>
    match Desk.call f args ⟨{}, []⟩ with
    | .ok v d => ⟨.ok v, d.calls⟩
    | .error e d => ⟨.error (Evaluation.callFailure name position source e), d.calls⟩

/-- Calls an entry of a table by its name. -/
def callEntry (t : Table Function) (name : String) (args : List Value) : Traced Value :=
  match t.find? name with
  | none => .fail (.fault (.missing (Quoted.encode name)))
  | some f => .of (Desk.call f args ⟨{}, []⟩)

end Reckon
