import Reckon.Datum
import Reckon.Fault
/-
  A store of bounded size that forgets what was not used for longest. Entries are listed from
  the least to the most recently used; setting a key and finding one are uses, asking whether a
  key is there is none.
-/
namespace Reckon

/-- A store of at most `capacity` entries. -/
structure Cache (κ ν : Type) where
  capacity : Nat
  entries : List (κ × ν)
  deriving Repr

namespace Cache

variable {κ ν : Type} [DecidableEq κ]

/-- A store without entries. -/
def empty (capacity : Nat) : Cache κ ν := ⟨capacity, []⟩

/-- The most entries that any store is asked to keep: more than can be made. -/
def unlimited : Nat := 1 <<< 64

/-- The whole entries that a number gives room for. -/
def roomOf : Datum.Scalar → Nat
  | .int i => i.toNat
  | .float x =>
    match Binary64.ofFloat x with
    | .finite negative m e => (Binary64.floorParts negative m e).toNat
    | _ => unlimited

/-- The room of a store, given as plain data: a number of at least one. -/
def capacity? (size : Datum) : Except Fault Nat :=
  match size.scalar? with
  | none => .error (.unordered "<" size.typeName (Datum.int 1).typeName)
  | some room =>
    if room.compare? (.int 1) == some .lt then .error (.cacheSize size.text)
    else .ok (roomOf room)

/-- An empty store; it must have room for an entry. -/
def create? (size : Datum) : Except Fault (Cache κ ν) := (capacity? size).map empty

def size (c : Cache κ ν) : Nat := c.entries.length

def isEmpty (c : Cache κ ν) : Bool := c.entries.isEmpty

/-- The value of a key; this is no use of it. -/
def find? (c : Cache κ ν) (key : κ) : Option ν :=
  (c.entries.find? fun e => e.1 = key).map (·.2)

def contains (c : Cache κ ν) (key : κ) : Bool := (c.find? key).isSome

/-- The entries of all other keys. -/
def others (c : Cache κ ν) (key : κ) : List (κ × ν) := c.entries.filter fun e => e.1 ≠ key

/-- The value of a key, which is now the most recently used one. -/
def get? (c : Cache κ ν) (key : κ) : Option ν × Cache κ ν :=
  match c.find? key with
  | some v => (some v, { c with entries := c.others key ++ [(key, v)] })
  | none => (none, c)

/-- Gives a key a value and makes it the most recently used one. The least recently used entries
that there is no room for are forgotten. -/
def set (c : Cache κ ν) (key : κ) (value : ν) : Cache κ ν :=
  let entries := c.others key ++ [(key, value)]
  { c with entries := entries.drop (entries.length - c.capacity) }

/-- Forgets all entries. -/
def clear (c : Cache κ ν) : Cache κ ν := { c with entries := [] }

def keys (c : Cache κ ν) : List κ := c.entries.map (·.1)

/-- The capacity unless one is given. -/
def defaultCapacity : Nat := 256

end Cache

end Reckon
