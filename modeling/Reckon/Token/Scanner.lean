import Reckon.Token.Lexeme
/-
  A scanner keeps a text and a set of operators between calls. A text is scanned once, with the
  operators that are set when it is first run; running again gives the same answer.
-/
namespace Reckon

/-- A scanner. -/
structure Scanner where
  limits : Limits
  /-- The operators as given, or nothing for the default ones. -/
  given : Option (List String)
  operators : OperatorTrie
  source : Option String
  /-- The scan of the source, once it has been made. -/
  scan : Option Scan
  deriving Repr

namespace Scanner

/-- The items of an operator list given as plain data; nothing stands for the default ones. -/
def operatorItems? : Datum → Except Fault (Option (List Datum))
  | .none => .ok none
  | d => d.items.map some

/-- Sets the operators; a list with a bad one is refused and changes nothing. -/
def setItems (s : Scanner) : Option (List Datum) → Except Fault Scanner
  | none => .ok { s with given := none, operators := .ofList defaultOperators }
  | some items => do
    let operators ← Datum.operators? items
    if s.given = some operators then .ok s
    else .ok { s with given := some operators, operators := .ofList operators }

def setOperators (s : Scanner) (operators : Datum) : Except Fault Scanner := do
  s.setItems (← operatorItems? operators)

/-- Loads a text and sets the operators. Nothing changes when either is refused. -/
def reset (s : Scanner) (source operators : Datum) : Except Fault Scanner :=
  match source with
  | .str text => do
    let s ← s.setOperators operators
    .ok { s with source := some text, scan := none }
  | d => .error (.expressionNotText d.typeName)

/-- A scanner, loaded when a source is given. -/
def create (source operators : Datum) (limits : Limits) : Except Fault Scanner := do
  let items ← operatorItems? operators
  let s ← setItems ⟨limits, none, .ofList defaultOperators, none, none⟩ items
  match source with
  | .none => .ok s
  | source => s.reset source (match items with
    | none => .none
    | some items => .list items)

/-- The scan of the loaded text: the one made before, or else a new one. -/
def scanned (s : Scanner) (source : String) : Scan :=
  s.scan.getD (.ofText s.operators source)

/-- Scans the loaded text. -/
def run (s : Scanner) : Except Failure (List Token) × Scanner :=
  match s.source with
  | none => (.error (.fault .noExpressionLoaded), s)
  | some source =>
    match s.limits.check .expressionLength source.toList.length with
    | .error e => (.error e, s)
    | .ok () =>
      let scan := s.scanned source
      (scan.result source, { s with scan := some scan })

/-- Loads a text and scans it. -/
def tokenize (s : Scanner) (source operators : Datum) : Except Failure (List Token) × Scanner :=
  match s.reset source operators with
  | .error f => (.error (.fault f), s)
  | .ok s => s.run

end Scanner

end Reckon
