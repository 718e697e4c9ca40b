import Reckon.Engine
import Reckon.Number.Numeral
/-
  Settings documents: a mapping from keys to plain data, tables of values and functions, and
  tables of operators. A document is checked field by field, and all that is wrong with it is
  reported together. Numbers and switches may be given as texts that say them. Precedence and
  operator functions are read on the spot; a wrong value there is reported with the rest, and
  any other fault ends the check.
-/
namespace Reckon

/-- What stands under a key of a document. -/
inductive Field where
  | datum (d : Datum)
  | values (entries : List (String × Value))
  | functions (entries : List (String × Function))
  | operatorFunctions (source : OperatorSource)
  | precedence (source : Precedence.Source)

/-- A document. -/
abbrev Document := List (String × Field)

/-- A step on the way to a part of a document. -/
inductive Place where
  | key (name : String)
  | index (n : Nat)
  deriving DecidableEq, Repr

/-- What can be wrong with a part of a document. -/
inductive Complaint where
  | notList
  | notText
  | emptyOperator
  | notMapping
  | notCallable
  | notLimits
  | unknownLimit
  | unclearBool
  | notBool
  | unclearInt
  | notFinite
  | fractionalInt
  | tooLargeInt
  | notInt
  | belowOne
  | wrongValue (message : String)
  | unknownKey
  deriving DecidableEq, Repr

/-- The word for a complaint. -/
def Complaint.label : Complaint → String
  | notList => "list_type"
  | notText => "string_type"
  | emptyOperator => "value_error"
  | wrongValue _ => "value_error"
  | notMapping => "dict_type"
  | notCallable => "callable_type"
  | notLimits => "dataclass_type"
  | unknownLimit => "unexpected_keyword_argument"
  | unclearBool => "bool_parsing"
  | notBool => "bool_type"
  | unclearInt => "int_parsing"
  | notFinite => "finite_number"
  | fractionalInt => "int_from_float"
  | tooLargeInt => "int_parsing_size"
  | notInt => "int_type"
  | belowOne => "greater_than_equal"
  | unknownKey => "extra_forbidden"

/-- A complaint in words. -/
def Complaint.message : Complaint → String
  | notList => "Input should be a valid list"
  | notText => "Input should be a valid string"
  | emptyOperator => "Value error, operators must be non-empty strings"
  | wrongValue message => "Value error, " ++ message
  | notMapping => "Input should be a valid dictionary"
  | notCallable => "Input should be callable"
  | notLimits => "Input should be a dictionary or an instance of ExpressionLimits"
  | unknownLimit => "Unexpected keyword argument"
  | unclearBool => "Input should be a valid boolean, unable to interpret input"
  | notBool => "Input should be a valid boolean"
  | unclearInt => "Input should be a valid integer, unable to parse string as an integer"
  | notFinite => "Input should be a finite number"
  | fractionalInt => "Input should be a valid integer, got a number with a fractional part"
  | tooLargeInt => "Unable to parse input string as an integer, exceeded maximum size"
  | notInt => "Input should be a valid integer"
  | belowOne => "Input should be greater than or equal to 1"
  | unknownKey => "Extra inputs are not permitted"

/-- Something wrong with a document, and where. -/
structure Issue where
  complaint : Complaint
  place : List Place
  deriving DecidableEq, Repr

/-- A checked document. -/
structure Configuration where
  operators : Option (List String)
  precedence : Option Precedence
  operatorFunctions : Option OperatorFunctions
  bindings : List (String × Value)
  functions : List (String × Function)
  limits : Option Limits
  caching : Bool
  cacheSize : Int

namespace Configuration

/-- A checked part, or what is wrong with it. -/
abbrev Checked (α : Type) := Except (List Issue) α

def complain {α : Type} (c : Complaint) (place : List Place) : Checked α := .error [⟨c, place⟩]

/-! ## Numbers and switches -/

/-- Whether a whole number fits a machine word. -/
def fitsWord (i : Int) : Bool := -9223372036854775808 ≤ i && i ≤ 9223372036854775807

/-- The whole number that a floating point number is. It must lie between the ends of a machine
word, which are no floating point numbers of a word themselves. -/
def intOfFloat (x : Float) : Except Complaint Int :=
  match Binary64.ofFloat x with
  | .finite negative m e =>
    let low := Binary64.floorParts negative m e
    if low ≠ Binary64.ceilParts negative m e then .error .fractionalInt
    else if fitsWord low && fitsWord (-low) then .ok low
    else .error .tooLargeInt
  | _ => .error .notFinite

/-- The whole number that a text says. -/
def intOfText (s : String) : Except Complaint Int :=
  (Numeral.ofText s).mapError fun
    | .malformed => .unclearInt
    | .tooLong => .tooLargeInt

/-- A whole number. -/
def checkInt (place : List Place) : Datum → Checked Int
  | .bool b => .ok (if b then 1 else 0)
  | .int i => .ok i
  | .float x => (intOfFloat x).mapError fun c => [⟨c, place⟩]
  | .str s => (intOfText s).mapError fun c => [⟨c, place⟩]
  | _ => complain .notInt place

/-- The words for on and off. -/
def trueTexts : List String := ["1", "on", "t", "true", "y", "yes"]

def falseTexts : List String := ["0", "off", "f", "false", "n", "no"]

/-- A switch as a number. -/
def boolOfInt (place : List Place) (i : Int) : Checked Bool :=
  if i = 1 then .ok true else if i = 0 then .ok false
  else if fitsWord i then complain .unclearBool place else complain .notBool place

/-- A switch. -/
def checkBool (place : List Place) : Datum → Checked Bool
  | .bool b => .ok b
  | .int i => boolOfInt place i
  | .float x =>
    match intOfFloat x with
    | .ok i => boolOfInt place i
    | .error _ => complain .notBool place
  | .str s =>
    let text := String.ofList (s.toList.map Char.toLower)
    if text ∈ trueTexts then .ok true
    else if text ∈ falseTexts then .ok false
    else complain .unclearBool place
  | _ => complain .notBool place

/-! ## Collecting -/

/-- The issues of a check. -/
def issues {α : Type} : Checked α → List Issue
  | .ok _ => []
  | .error is => is

/-- All parts, or everything that is wrong with them. -/
def collect {α : Type} : List (Checked α) → Checked (List α)
  | [] => .ok []
  | c :: cs =>
    match c, collect cs with
    | .ok a, .ok as => .ok (a :: as)
    | c, rest => .error (issues c ++ issues rest)

/-! ## Fields -/

/-- Operators: nothing, or a list of texts none of which is empty. -/
def checkOperators (place : List Place) : Field → Checked (Option (List String))
  | .datum .none => .ok none
  | .datum (.list items) => do
    let texts ← collect (items.mapIdx fun i d =>
      match d with
      | .str s => .ok s
      | _ => complain .notText (place ++ [.index i]))
    if "" ∈ texts then complain .emptyOperator place else .ok (some texts)
  | _ => complain .notList place

def checkVariables (place : List Place) : Field → Checked (List (String × Value))
  | .values entries => .ok entries
  | _ => complain .notMapping place

/-- Functions: a mapping to entries that can be called. -/
def checkFunctions (place : List Place) : Field → Checked (List (String × Function))
  | .functions entries =>
    collect (entries.map fun (name, f) =>
      if f.isCallable then .ok (name, f) else complain .notCallable (place ++ [.key name]))
  | _ => complain .notMapping place

/-- One of the limits of a mapping; the standard one unless it is given. -/
def checkLimit (place : List Place) (entries : List (String × Datum)) (l : Limit) : Checked Int :=
  match entries.lookup l.label with
  | some d => checkInt (place ++ [.key l.label]) d
  | none => .ok (l.bound {})

/-- The limits, in the order in which they are checked. -/
def allLimits : List Limit := [.expressionLength, .nestingDepth, .nodes, .arguments]

/-- Limits: nothing, or a mapping with limits only. -/
def checkLimits (place : List Place) : Field → Checked (Option Limits)
  | .datum .none => .ok none
  | .datum (.dict entries) =>
    let unknown := entries.filter fun e => e.1 ∉ allLimits.map Limit.label
    let unknownIssues : List Issue :=
      unknown.map fun e => ⟨.unknownLimit, place ++ [.key e.1]⟩
    match collect (allLimits.map (checkLimit place entries)), unknownIssues with
    | .ok [length, depth, nodes, arguments], [] => .ok (some ⟨length, depth, nodes, arguments⟩)
    | c, us => .error (issues c ++ us)
  | _ => complain .notLimits place

/-- A field that holds plain data. -/
def plain : Field → Datum
  | .datum d => d
  | _ => .dict []

def checkCacheSize (place : List Place) (f : Field) : Checked Int := do
  let n ← checkInt place (plain f)
  if n < 1 then complain .belowOne place else .ok n

/-- Precedence: nothing, or tables. -/
def readPrecedence : Field → Except Fault (Option Precedence)
  | .precedence (.datum .none) => .ok none
  | .precedence source => (Precedence.ofSource source).map some
  | .datum .none => .ok none
  | .datum d => (Precedence.ofDatum d).map some
  | _ => .ok none

/-- Operator functions: nothing, or tables. -/
def readOperatorFunctions : Field → Except Fault (Option OperatorFunctions)
  | .operatorFunctions (.datum .none) => .ok none
  | .operatorFunctions source => (OperatorFunctions.ofSource source).map some
  | .datum .none => .ok none
  | .datum d => (OperatorFunctions.ofSource (.datum d)).map some
  | _ => .ok none

/-! ## Documents -/

/-- The fields of a document and their spellings; of several that are there, the first counts. -/
inductive FieldName where
  | operators
  | precedence
  | operatorFunctions
  | bindings
  | functions
  | limits
  | caching
  | cacheSize
  deriving DecidableEq, Repr

def FieldName.spellings : FieldName → List String
  | operators => ["operators"]
  | precedence => ["precedenceLevels", "precedence_levels"]
  | operatorFunctions => ["operatorFunctions", "operator_functions"]
  | bindings => ["variables"]
  | functions => ["functions"]
  | limits => ["limits"]
  | caching => ["cache"]
  | cacheSize => ["cacheSize", "cache_size"]

def FieldName.all : List FieldName :=
  [operators, precedence, operatorFunctions, bindings, functions, limits, caching, cacheSize]

/-- The key that a document uses for a field, with what stands there. -/
def find? (doc : Document) (name : FieldName) : Option (String × Field) :=
  (name.spellings.filterMap fun k => (doc.lookup k).map fun f => (k, f)).head?

/-- Checks a field that may be missing. -/
def field {α : Type} (doc : Document) (name : FieldName) (missing : α)
    (check : List Place → Field → Checked α) : Checked α :=
  match find? doc name with
  | some (k, f) => check [.key k] f
  | none => .ok missing

/-- Keys that no field of the document uses. -/
def unknownKeys (doc : Document) : List String :=
  let used := (FieldName.all.filterMap (find? doc)).map (·.1)
  (doc.map (·.1)).filter (· ∉ used)

/-- Why a document is refused. -/
inductive Refusal where
  | fault (f : Fault)
  | issues (is : List Issue)

/-- Reads a field on the spot. A wrong value is an issue; any other fault ends the check. -/
def onTheSpot {α : Type} (doc : Document) (name : FieldName)
    (read : Field → Except Fault (Option α)) : Except Refusal (Checked (Option α)) :=
  match find? doc name with
  | none => .ok (.ok none)
  | some (k, field) =>
    match read field with
    | .ok a => .ok (.ok a)
    | .error f =>
      if f.kind = .wrongValue then .ok (complain (.wrongValue f.message) [.key k])
      else .error (.fault f)

/-- Checks a document. -/
def ofDocument (doc : Document) : Except Refusal Configuration := do
  let operators := field doc .operators none checkOperators
  let precedence ← onTheSpot doc .precedence readPrecedence
  let operatorFunctions ← onTheSpot doc .operatorFunctions readOperatorFunctions
  let bindings := field doc .bindings [] checkVariables
  let functions := field doc .functions [] checkFunctions
  let limits := field doc .limits none checkLimits
  let caching := field doc .caching true fun place f => checkBool place (plain f)
  let cacheSize := field doc .cacheSize (Cache.defaultCapacity : Int) checkCacheSize
  let unknown := (unknownKeys doc).map fun k => Issue.mk .unknownKey [.key k]
  match operators, precedence, operatorFunctions, bindings, functions, limits, caching, cacheSize,
    unknown with
  | .ok operators, .ok precedence, .ok operatorFunctions, .ok bindings, .ok functions, .ok limits,
    .ok caching, .ok cacheSize, [] =>
    .ok ⟨operators, precedence, operatorFunctions, bindings, functions, limits, caching,
      cacheSize⟩
  | _, _, _, _, _, _, _, _, _ =>
    .error (.issues (issues operators ++ issues precedence ++ issues operatorFunctions
      ++ issues bindings ++ issues functions ++ issues limits ++ issues caching
      ++ issues cacheSize ++ unknown))

/-- The settings of a checked document. -/
def tables (c : Configuration) : Tables where
  operators := c.operators.getD defaultOperators
  precedence := c.precedence.getD .default
  operatorFunctions := c.operatorFunctions.getD .default
  bindings := .ofEntries c.bindings
  functions := .ofEntries c.functions

/-- A new engine with the settings of a checked document. -/
def engine (c : Configuration) : Change :=
  Engine.ofTables (c.limits.getD {}) c.caching c.cacheSize.toNat c.tables

end Configuration

end Reckon
