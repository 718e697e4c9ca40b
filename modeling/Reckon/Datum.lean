import Reckon.Number.Layout
import Reckon.Text.Quoted
/-
  Plain data of unknown shape: what a settings document holds before it has been checked.
  Mappings keep the order of their entries. Besides the shapes themselves this module has what
  checking needs: names of shapes, truth, equality across number kinds, order, and the text
  that messages show.
-/
namespace Reckon

/-- Plain data. -/
inductive Datum where
  | none
  | bool (b : Bool)
  | int (i : Int)
  | float (x : Float)
  | str (s : String)
  | list (items : List Datum)
  | dict (entries : List (String × Datum))

instance : Inhabited Datum := ⟨.none⟩

namespace Datum

/-- The word for the shape of a datum. -/
def typeName : Datum → String
  | .none => "NoneType"
  | .bool _ => "bool"
  | .int _ => "int"
  | .float _ => "float"
  | .str _ => "str"
  | .list _ => "list"
  | .dict _ => "dict"

/-- Zero, nothing and empty collections are false; all else is true. -/
def truthy : Datum → Bool
  | .none => false
  | .bool b => b
  | .int i => i != 0
  | .float x => x != 0
  | .str s => s != ""
  | .list items => !items.isEmpty
  | .dict entries => !entries.isEmpty

def boolText (b : Bool) : String := if b then "True" else "False"

mutual
/-- The text that a message shows for a datum: texts stand in quotes. -/
def text : Datum → String
  | .none => "None"
  | .bool b => boolText b
  | .int i => toString i
  | .float x => Layout.standard.float x
  | .str s => Quoted.encode s
  | .list items => "[" ++ itemTexts items ++ "]"
  | .dict entries => "\x7b" ++ entryTexts entries ++ "\x7d"

def itemTexts : List Datum → String
  | [] => ""
  | [d] => text d
  | d :: ds => text d ++ ", " ++ itemTexts ds

def entryTexts : List (String × Datum) → String
  | [] => ""
  | [(k, d)] => Quoted.encode k ++ ": " ++ text d
  | (k, d) :: es => Quoted.encode k ++ ": " ++ text d ++ ", " ++ entryTexts es
end

/-- Whether a datum can be told apart by its value alone, as keys and members of sets must be:
a list or mapping cannot. -/
def isKey : Datum → Bool
  | .list _ => false
  | .dict _ => false
  | _ => true

/-- Numbers as data: a truth value counts as zero or one. -/
inductive Scalar where
  | int (i : Int)
  | float (x : Float)

def scalar? : Datum → Option Scalar
  | .bool b => some (.int (if b then 1 else 0))
  | .int i => some (.int i)
  | .float x => some (.float x)
  | _ => Option.none

/-- Exact order of a whole number and a floating point number. -/
def Scalar.compareIntFloat (i : Int) (x : Float) : Option Ordering :=
  match Binary64.ofFloat x with
  | .finite negative m e => some (Binary64.compareInt i negative m e)
  | .infinite negative => some (if negative then .gt else .lt)
  | .nan => Option.none

/-- Order of two numbers by their exact values; nothing compares with a number that is none. -/
def Scalar.compare? : Scalar → Scalar → Option Ordering
  | .int i, .int j => some (compare i j)
  | .int i, .float y => compareIntFloat i y
  | .float x, .int j => (compareIntFloat j x).map Ordering.swap
  | .float x, .float y =>
    if x < y then some .lt else if x == y then some .eq else if y < x then some .gt
    else Option.none

/-- Equality of single values: numbers are equal when their values are, whatever their kind. -/
def sameScalar (a b : Datum) : Bool :=
  match a.scalar?, b.scalar? with
  | some x, some y => x.compare? y == some .eq
  | _, _ =>
    match a, b with
    | .none, .none => true
    | .str s, .str t => s == t
    | _, _ => false

mutual
/-- Equality of data: lists entry by entry, mappings as sets of entries. -/
def same : Datum → Datum → Bool
  | .list xs, .list ys => sameItems xs ys
  | .dict xs, .dict ys => xs.length == ys.length && sameEntries xs ys
  | a, b => sameScalar a b

def sameItems : List Datum → List Datum → Bool
  | [], [] => true
  | x :: xs, y :: ys => same x y && sameItems xs ys
  | _, _ => false

/-- Every entry of the first mapping is in the second. -/
def sameEntries : List (String × Datum) → List (String × Datum) → Bool
  | [], _ => true
  | (k, d) :: es, ys =>
    (match ys.lookup k with
      | some d' => same d d'
      | Option.none => false) && sameEntries es ys
end

/-- The words for the shapes of two data that have no order. -/
abbrev Unordered := String × String

/-- Whether a single value comes at or before another: numbers by value, texts by their
characters. Other pairs have no order. -/
def scalarAtMost (a b : Datum) : Except Unordered Bool :=
  match a.scalar?, b.scalar? with
  | some x, some y => .ok ((x.compare? y).any (· != .gt))
  | _, _ =>
    match a, b with
    | .str s, .str t => .ok (!decide (t < s))
    | a, b => .error (a.typeName, b.typeName)

mutual
/-- Whether `a` comes at or before `b`. Of two lists the first items that differ decide, and where
none do, the shorter list comes first. -/
def atMost : Datum → Datum → Except Unordered Bool
  | .list xs, .list ys => itemsAtMost xs ys
  | a, b => scalarAtMost a b

def itemsAtMost : List Datum → List Datum → Except Unordered Bool
  | [], _ => .ok true
  | _ :: _, [] => .ok false
  | x :: xs, y :: ys => if same x y then itemsAtMost xs ys else atMost x y
end

/-- A whole number that is no truth value. -/
def IsInt : Datum → Prop
  | .int _ => True
  | _ => False

instance (d : Datum) : Decidable d.IsInt := by
  cases d <;> unfold IsInt <;> infer_instance

/-- Whole numbers are ordered as numbers. -/
theorem atMost_int (i j : Int) : atMost (.int i) (.int j) = .ok (decide (i ≤ j)) := by
  have h : (compare i j != .gt) = decide (i ≤ j) := by
    rcases Int.lt_trichotomy i j with h | h | h
    · simp [compare, compareOfLessAndEq, h, Int.le_of_lt h]
    · subst h; simp [compare, compareOfLessAndEq]
    · have h1 : ¬ i < j := by omega
      have h2 : i ≠ j := by omega
      have h3 : ¬ i ≤ j := by omega
      simp [compare, compareOfLessAndEq, h1, h2, h3]
  simp [atMost, scalarAtMost, scalar?, Scalar.compare?, h]

end Datum

end Reckon
