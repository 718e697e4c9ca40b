import Reckon.Datum
import Reckon.Fault
import Reckon.Table
/-
  Plain data read as collections. A text stands for its characters and a mapping for its keys,
  so each shape that holds several things can be read as a list of items. A table is given as a
  mapping, or as a list of pairs where each pair is again a collection, of two items. Keys that
  are equal are one key: the first spelling stays, the last value counts.
-/
namespace Reckon.Datum

/-- The items of a collection. -/
def items? : Datum → Option (List Datum)
  | .list items => some items
  | .str s => some (s.toList.map fun c => .str (String.ofList [c]))
  | .dict entries => some (entries.map fun e => .str e.1)
  | _ => Option.none

/-- The items of a datum that has to be a collection. -/
def items (d : Datum) : Except Fault (List Datum) :=
  match d.items? with
  | some items => .ok items
  | Option.none => .error (.notIterable d.typeName)

/-! ## Entries -/

/-- The item at `index` of a list of pairs, as a key with a value. -/
def pair (index : Nat) (d : Datum) : Except Fault (Datum × Datum) :=
  match d.items? with
  | Option.none => .error (.notPair index)
  | some [key, value] =>
    if key.isKey then .ok (key, value) else .error (.notKey key.typeName)
  | some items => .error (.pairLength index items.length)

/-- A list of pairs that starts at `index`. The first bad pair is the one that is reported. -/
def pairs (index : Nat) : List Datum → Except Fault (List (Datum × Datum))
  | [] => .ok []
  | d :: ds => do
    let entry ← pair index d
    let rest ← pairs (index + 1) ds
    .ok (entry :: rest)

/-- Gives a key a value: in place if an equal key has one, as a last entry otherwise. -/
def enter (key value : Datum) : List (Datum × Datum) → List (Datum × Datum)
  | [] => [(key, value)]
  | (k, v) :: es => if same k key then (k, value) :: es else (k, v) :: enter key value es

/-- Entries with each key once. -/
def distinctEntries (entries : List (Datum × Datum)) : List (Datum × Datum) :=
  entries.foldl (fun es e => enter e.1 e.2 es) []

/-- The entries of a table: nothing, zero and empty collections are empty tables. -/
def entries (d : Datum) : Except Fault (List (Datum × Datum)) :=
  match d with
  | .dict entries => .ok (entries.map fun e => (.str e.1, e.2))
  | d =>
    if d.truthy then do
      let items ← d.items
      let pairs ← pairs 0 items
      .ok (distinctEntries pairs)
    else .ok []

/-- The entries whose keys are texts. -/
def textEntries (entries : List (Datum × Datum)) : Table Datum :=
  .ofEntries (entries.filterMap fun e =>
    match e.1 with
    | .str key => some (key, e.2)
    | _ => Option.none)

/-- The entries whose keys are no texts. -/
def strayEntries (entries : List (Datum × Datum)) : List (Datum × Datum) :=
  entries.filter fun e =>
    match e.1 with
    | .str _ => false
    | _ => true

/-- The text under which an entry is shown. -/
def keyText : Datum → String
  | .none => "null"
  | .bool b => if b then "true" else "false"
  | .str s => s
  | d => d.text

end Reckon.Datum
