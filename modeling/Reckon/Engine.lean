import Reckon.Cache
import Reckon.Engine.Event
import Reckon.Expr.Evaluation
import Reckon.Expr.Parser
import Reckon.Token.Scanner
/-
  The engine: five tables of settings, limits, and three stores that remember the tokens and
  the tree of a text and the result of a tree. A tree's result is remembered without positions,
  so texts that differ in blanks only share it.

  A change of settings is a `Change`: the engine after it and what happened. It is made as a
  whole or not at all, and drops what was remembered under the old settings: tokens with the
  operators, trees also with the precedence, results with everything.
-/
namespace Reckon

/-- The settings of an engine. -/
structure Tables where
  operators : List String
  precedence : Precedence
  operatorFunctions : OperatorFunctions
  bindings : Table Value
  functions : Table Function

/-- The evaluation in progress. It reads the operator functions and the text that it was
started with, but the variables and functions that are in force: a change of an entry is seen at
once. Only when a whole table is replaced does the evaluation stay with the old one. -/
structure Evaluating where
  source : Option String
  operatorFunctions : OperatorFunctions
  /-- The replaced variables, if they have been replaced. -/
  bindings : Option (Table Value)
  /-- The replaced functions, if they have been replaced. -/
  functions : Option (Table Function)

/-- An engine. -/
structure Engine where
  limits : Limits
  /-- Whether anything is remembered. -/
  caching : Bool
  tables : Tables
  /-- The operators that texts are scanned with. -/
  trie : OperatorTrie
  tokens : Cache String (List Token)
  trees : Cache String Expr
  results : Cache Expr Value
  evaluating : Option Evaluating

/-- An engine after a change, and what happened. -/
structure Change where
  engine : Engine
  events : List Event

namespace Tables

/-- Refuses a table with an entry that cannot be called. -/
def checkFunctions : List (String × Function) → Except Fault Unit
  | [] => .ok ()
  | (name, f) :: fs =>
    if f.isCallable then checkFunctions fs
    else .error (.functionNotCallable (Quoted.encode name) f.typeName)

/-- The operators of a list given as plain data; nothing stands for the default ones. -/
def operatorItems : Datum → Except Fault (List Datum)
  | .none => .ok (defaultOperators.map .str)
  | d => d.items

/-- Reads all settings. The operators are checked last. -/
def read (operators : Datum) (levels : Precedence.Source) (bindings : List (String × Value))
    (operatorFunctions : OperatorSource) (functions : List (String × Function)) :
    Except Fault Tables := do
  let items ← operatorItems operators
  let precedence ← Precedence.ofSource levels
  let operatorFunctions ← OperatorFunctions.ofSource operatorFunctions
  checkFunctions functions
  let operators ← Datum.operators? items
  .ok ⟨operators, precedence, operatorFunctions, .ofEntries bindings, .ofEntries functions⟩

end Tables

namespace Engine

/-! ## Forgetting -/

/-- Drops all results. -/
def dropResults (e : Engine) : Change :=
  ⟨{ e with results := e.results.clear },
    if e.results.isEmpty then [] else [.resultsDropped e.results.size]⟩

/-- Drops all trees and results. -/
def dropTrees (e : Engine) : Change := dropResults { e with trees := e.trees.clear }

/-- Drops everything. -/
def dropTokens (e : Engine) : Change := dropTrees { e with tokens := e.tokens.clear }

/-- Forgets everything, without a word. -/
def clearCaches (e : Engine) : Engine :=
  { e with tokens := e.tokens.clear, trees := e.trees.clear, results := e.results.clear }

/-- A change with one more event. -/
def Change.andThen (c : Change) (event : Event) : Change := { c with events := c.events ++ [event] }

/-! ## Settings -/

/-- The evaluation in progress keeps the variables that are about to be replaced. -/
def keepVariables (e : Engine) : Engine :=
  { e with evaluating := e.evaluating.map fun v =>
      { v with bindings := some (v.bindings.getD e.tables.bindings) } }

/-- The evaluation in progress keeps the functions that are about to be replaced. -/
def keepFunctions (e : Engine) : Engine :=
  { e with evaluating := e.evaluating.map fun v =>
      { v with functions := some (v.functions.getD e.tables.functions) } }

/-- Replaces all settings. -/
def reset (e : Engine) (tables : Tables) : Change :=
  let e := e.keepVariables.keepFunctions
  ⟨clearCaches { e with tables, trie := .ofList tables.operators },
    [.restarted tables.operators tables.bindings.length tables.functions.length]⟩

/-- Replaces the operators. -/
def setOperators (e : Engine) (operators : List String) : Change :=
  Change.andThen
    (dropTokens { e with tables := { e.tables with operators }, trie := .ofList operators })
    (.operatorsChanged operators)

/-- Replaces the precedence. -/
def setPrecedence (e : Engine) (precedence : Precedence) : Change :=
  Change.andThen (dropTrees { e with tables := { e.tables with precedence } })
    (.precedenceChanged precedence)

/-- Replaces the operator functions. -/
def setOperatorFunctions (e : Engine) (operatorFunctions : OperatorFunctions) : Change :=
  Change.andThen (dropResults { e with tables := { e.tables with operatorFunctions } })
    .operatorFunctionsChanged

/-- Changes entries of the variables. -/
def updateVariables (e : Engine) (bindings : Table Value) : Change :=
  dropResults { e with tables := { e.tables with bindings } }

/-- Changes entries of the functions. -/
def updateFunctions (e : Engine) (functions : Table Function) : Change :=
  dropResults { e with tables := { e.tables with functions } }

def addVariables (e : Engine) (entries : List (String × Value)) : Change :=
  e.updateVariables (e.tables.bindings.insertAll entries)

def setVariables (e : Engine) (entries : List (String × Value)) : Change :=
  e.keepVariables.updateVariables (.ofEntries entries)

def addFunctions (e : Engine) (entries : List (String × Function)) : Change :=
  e.updateFunctions (e.tables.functions.insertAll entries)

def setFunctions (e : Engine) (entries : List (String × Function)) : Change :=
  e.keepFunctions.updateFunctions (.ofEntries entries)

def removeVariable (e : Engine) (name : String) : Except Fault Change :=
  if e.tables.bindings.contains name then
    .ok (e.updateVariables (e.tables.bindings.erase name))
  else .error (.missing (Quoted.encode name))

def removeFunction (e : Engine) (name : String) : Except Fault Change :=
  if e.tables.functions.contains name then
    .ok (e.updateFunctions (e.tables.functions.erase name))
  else .error (.missing (Quoted.encode name))

/-! ## Making an engine -/

/-- An engine with given settings, all of them valid. -/
def ofTables (limits : Limits) (caching : Bool) (cacheSize : Nat) (tables : Tables) : Change :=
  let blank : Tables := ⟨[], ⟨[], [], [], [], []⟩, ⟨[], []⟩, [], []⟩
  reset ⟨limits, caching, blank, .empty, .empty cacheSize, .empty cacheSize, .empty cacheSize,
    none⟩ tables

/-! ## Evaluating -/

/-- The scope of the evaluation in progress. -/
def scope (e : Engine) : Scope :=
  match e.evaluating with
  | none => ⟨e.tables.bindings, e.tables.operatorFunctions, e.tables.functions, none⟩
  | some v =>
    ⟨v.bindings.getD e.tables.bindings, v.operatorFunctions,
      v.functions.getD e.tables.functions, v.source⟩

/-- Starts an evaluation, in place of the one in progress. -/
def beginEvaluation (e : Engine) (source : Option String) : Engine :=
  { e with evaluating := some ⟨source, e.tables.operatorFunctions, none, none⟩ }

end Engine

end Reckon
