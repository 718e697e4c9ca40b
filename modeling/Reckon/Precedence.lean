import Reckon.Datum.Collection
/-
  How tightly operators bind. Each operator that can stand before an operand has a level, each
  that can stand between two operands another; the higher level binds tighter. Operators may
  group to the right. Levels are whole numbers when tables are read from plain data; tables
  that are put together directly may hold anything, and only a comparison shows whether two
  levels have an order.
-/
namespace Reckon

/-- A level. -/
abbrev Level := Datum

/-- The levels of operators, and those that group to the right. -/
structure Precedence where
  unary : Table Level
  binary : Table Level
  rightAssociative : List Datum
  /-- Entries for operators before an operand under keys that are no texts. They are kept and
  shown, but no operator has them. -/
  strayUnary : List (Datum × Level) := []
  /-- The same for operators between two operands. -/
  strayBinary : List (Datum × Level) := []
  deriving Inhabited

namespace Precedence

/-- An entry that holds nothing is no level. -/
def levelIn (t : Table Level) (operator : String) : Option Level :=
  match t.find? operator with
  | some .none => none
  | level => level

def unaryLevel (p : Precedence) (operator : String) : Option Level := levelIn p.unary operator

def binaryLevel (p : Precedence) (operator : String) : Option Level := levelIn p.binary operator

def isRightAssociative (p : Precedence) (operator : String) : Bool :=
  p.rightAssociative.any (Datum.same (.str operator))

/-- The level of an operator that goes on with an operand read at `floor`: it binds tighter than
`floor` or groups to the right. Two levels without an order are a fault. -/
def continues (p : Precedence) (floor : Level) (operator : String) :
    Except Fault (Option Level) :=
  match p.binaryLevel operator with
  | none => .ok none
  | some level =>
    match Datum.atMost level floor with
    | .error (l, r) => .error (.unordered "<=" l r)
    | .ok low =>
      .ok (if low && !p.isRightAssociative operator then none else some level)

/-- The level that any operator with a positive level exceeds. -/
def lowest : Level := .int 0

/-- The tables in use unless others are given. -/
def default : Precedence where
  unary := [("-", .int 4)]
  binary := [("^", .int 3), ("*", .int 2), ("/", .int 2), ("%", .int 2), ("+", .int 1),
    ("-", .int 1)]
  rightAssociative := [.str "^"]

/-- Drops entries that repeat an earlier one. -/
def distinct : List Datum → List Datum
  | [] => []
  | d :: ds => d :: (distinct ds).filter fun x => !Datum.same x d

/-- The operators that group to the right: one text, a list, or the entries of a mapping that
are true. -/
def operatorSet : Datum → Except Fault (List Datum)
  | .none => .ok []
  | .dict entries => .ok ((entries.filter (·.2.truthy)).map fun e => .str e.1)
  | .str s => .ok [.str s]
  | .list items =>
    match items.find? (!·.isKey) with
    | some d => .error (.notKey d.typeName)
    | none => .ok (distinct items)
  | d => .error (.notIterable d.typeName)

/-- The entry under the first of several spellings of a key that is there. -/
def entry (keys : List String) (entries : List (String × Datum)) : Datum :=
  ((keys.filterMap fun k => entries.lookup k).head?).getD .none

def unaryKeys : List String := ["unary", "Unary"]

def binaryKeys : List String := ["binary", "Binary"]

def rightAssociativeKeys : List String :=
  ["right_associative", "rightAssociative", "RightAssociative",
    "RightAssociativeBinaryOperators"]

/-- The entries of a table: nothing and empty collections are empty tables. -/
def sectionEntries (d : Datum) : Except Fault (List (String × Datum)) :=
  match d with
  | .dict entries => .ok entries
  | d => if d.truthy then .error (.noEntries d.typeName) else .ok []

/-- Refuses a table with a level that is no whole number; truth values are none here. -/
def checkLevels (arity : String) : List (String × Datum) → Except Fault Unit
  | [] => .ok ()
  | (_, .int _) :: es => checkLevels arity es
  | (op, d) :: _ => .error (.levelNotInt arity (Quoted.encode op) d.text)

/-- Tables as plain data: nothing stands for the default ones. Each table may be missing and
may be spelled in several ways; levels must be whole numbers. -/
def ofDatum : Datum → Except Fault Precedence
  | .none => .ok default
  | .dict entries => do
    let unary ← sectionEntries (entry unaryKeys entries)
    checkLevels "unary" unary
    let binary ← sectionEntries (entry binaryKeys entries)
    checkLevels "binary" binary
    let right ← operatorSet (entry rightAssociativeKeys entries)
    .ok { unary := .ofEntries unary, binary := .ofEntries binary, rightAssociative := right }
  | d => .error (.levelsNotMapping d.typeName)

/-- Tables put together directly: levels are taken as they are. -/
def direct (unary binary right : Datum) : Except Fault Precedence := do
  let unary ← unary.entries
  let binary ← binary.entries
  let right ← operatorSet right
  .ok {
    unary := Datum.textEntries unary
    binary := Datum.textEntries binary
    rightAssociative := right
    strayUnary := Datum.strayEntries unary
    strayBinary := Datum.strayEntries binary }

/-- The entries for operators before an operand, as they are shown. -/
def shownUnary (p : Precedence) : List (String × Level) :=
  p.unary ++ p.strayUnary.map fun e => (e.1.keyText, e.2)

/-- The entries for operators between two operands, as they are shown. -/
def shownBinary (p : Precedence) : List (String × Level) :=
  p.binary ++ p.strayBinary.map fun e => (e.1.keyText, e.2)

/-- The same operators with equal levels. -/
def sameTable (s t : Table Level) : Bool := Datum.same (.dict s) (.dict t)

/-- Equal entries under equal keys. -/
def sameStray (xs ys : List (Datum × Level)) : Bool :=
  xs.length == ys.length
    && xs.all fun x => ys.any fun y => Datum.same x.1 y.1 && Datum.same x.2 y.2

def sameSet (xs ys : List Datum) : Bool :=
  xs.length == ys.length && xs.all fun x => ys.any fun y => Datum.same x y

/-- Whether two tables say the same. -/
def same (p q : Precedence) : Bool :=
  sameTable p.unary q.unary && sameTable p.binary q.binary
    && sameStray p.strayUnary q.strayUnary && sameStray p.strayBinary q.strayBinary
    && sameSet p.rightAssociative q.rightAssociative

end Precedence

/-- How precedence tables are given: as plain data that is still to be read, or ready for use. -/
inductive Precedence.Source where
  | datum (d : Datum)
  | table (p : Precedence)

/-- Reads tables. -/
def Precedence.ofSource : Precedence.Source → Except Fault Precedence
  | .datum d => ofDatum d
  | .table p => .ok p

/-- The tables in use unless others are given. -/
def Precedence.Source.standard : Precedence.Source := .datum .none

/-- Whether a source stands for the default tables. -/
def Precedence.Source.isStandard : Precedence.Source → Bool
  | .datum .none => true
  | _ => false

end Reckon
