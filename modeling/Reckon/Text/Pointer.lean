/-
  A message with a caret under the place it speaks about. The expression is shown on one line,
  cut to a window of twenty characters before the place and twenty-one from it on; three dots
  stand for what is cut off. The caret's line follows.
-/
namespace Reckon

/-- The part of an expression that is shown around a place. -/
structure Window where
  /-- The place, moved into the expression. -/
  place : Nat
  /-- The first character shown. -/
  start : Nat
  /-- The first character not shown any more. -/
  stop : Nat
  /-- The length of the expression. -/
  length : Nat
  deriving DecidableEq, Repr

namespace Window

/-- Characters shown on each side of the place. -/
def reach : Nat := 20

/-- The window around `position` in an expression of the given length: a position before the
start counts as the start, one past the end as the end. -/
def around (length : Nat) (position : Int) : Window :=
  let place := min position.toNat length
  ⟨place, place - reach, min length (place + reach + 1), length⟩

def ellipsis : String := "..."

/-- Dots before the text when its start is cut off. -/
def leading (w : Window) : String := if 0 < w.start then ellipsis else ""

/-- Dots after the text when its end is cut off. -/
def trailing (w : Window) : String := if w.stop < w.length then ellipsis else ""

/-- The characters shown. -/
def shown (w : Window) (expression : String) : String :=
  String.ofList ((expression.toList.drop w.start).take (w.stop - w.start))

/-- The line that shows the expression. -/
def line (w : Window) (expression : String) : String :=
  w.leading ++ w.shown expression ++ w.trailing

/-- The column of the caret in the line. -/
def column (w : Window) : Nat := w.leading.toList.length + (w.place - w.start)

/-- The caret's line. -/
def caret (w : Window) : String := String.ofList (List.replicate w.column ' ' ++ ['^'])

end Window

/-- A message, the expression around `position` and a caret under it. -/
def pointAt (message expression : String) (position : Int) : String :=
  let w := Window.around expression.toList.length position
  message ++ "\n  " ++ w.line expression ++ "\n  " ++ w.caret

end Reckon
