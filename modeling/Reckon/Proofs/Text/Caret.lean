import Reckon.Text.Pointer
/-
  What a message shows of an expression: a line with the characters around a place, and below it a
  line with a caret. Both lines are said here without the window that they are made from
  (`Points`). In particular the caret's column splits the line above it at the place: what is shown
  in front of the column ends with the character before the place, and what is shown from it on
  begins with the one at the place. So dots that stand for a cut-off start shift the caret by their
  own length, and nothing else does. `pointAt_points` is the main statement, for any expression and
  any position.
-/
namespace Reckon

/-- Dots where something is cut off. -/
def dotsIf (cut : Bool) : List Char := if cut then ['.', '.', '.'] else []

/-- A line shows the characters of a text from `start` to `stop`, and a caret below it stands under
the place: at the character of the place, or behind the last one. -/
structure Points (text : List Char) (place start stop column : Nat) (above pointer : List Char) :
    Prop where
  start_le : start ≤ place
  le_stop : place ≤ stop
  stop_le : stop ≤ text.length
  /-- At most twenty characters are shown in front of the place, and fewer only at the start. -/
  before : place - start ≤ 20 ∧ (0 < start → place - start = 20)
  /-- At most twenty-one characters are shown from the place on, and fewer only at the end. -/
  behind : stop - place ≤ 21 ∧ (stop < text.length → stop - place = 21)
  above_eq : above = dotsIf (0 < start) ++ text.extract start stop ++ dotsIf (stop < text.length)
  /-- Without dots the whole text is shown. -/
  whole : start = 0 → stop = text.length → stop - start = text.length ∧ above = text
  /-- The caret is the last character of its line. -/
  pointer_eq : pointer = List.replicate column ' ' ++ ['^']
  take_column : above.take column = dotsIf (0 < start) ++ text.extract start place
  drop_column : above.drop column = text.extract place stop ++ dotsIf (stop < text.length)
  at_place : place < text.length → above[column]? = text[place]?
  at_end : place = text.length →
    column = (dotsIf (0 < start) ++ text.extract start stop).length ∧ above.length = column

/-! ## Slices -/

/-- A slice is cut in two at a place in it. -/
theorem extract_append {α : Type} (l : List α) {start place stop : Nat} (hs : start ≤ place)
    (hp : place ≤ stop) : l.extract start place ++ l.extract place stop = l.extract start stop := by
  have hlength : stop - start = (place - start) + (stop - place) := by omega
  have hplace : start + (place - start) = place := by omega
  rw [List.extract_eq_take_drop, List.extract_eq_take_drop, List.extract_eq_take_drop, hlength,
    List.take_add, List.drop_drop, hplace]

theorem length_extract {α : Type} {l : List α} {start stop : Nat} (h : stop ≤ l.length) :
    (l.extract start stop).length = stop - start := by
  rw [List.extract_eq_take_drop, List.length_take, List.length_drop]
  omega

namespace Window

/-! ## The window -/

theorem place_around (length : Nat) (position : Int) :
    ((around length position).place : Int) = max 0 (min position length) := by
  show ((min position.toNat length : Nat) : Int) = _
  omega

theorem leading_toList (w : Window) : w.leading.toList = dotsIf (0 < w.start) := by
  unfold leading dotsIf
  by_cases h : 0 < w.start
  · simp [h, ellipsis]
  · simp [h]

theorem trailing_toList (w : Window) : w.trailing.toList = dotsIf (w.stop < w.length) := by
  unfold trailing dotsIf
  by_cases h : w.stop < w.length
  · simp [h, ellipsis]
  · simp [h]

theorem shown_toList (w : Window) (expression : String) :
    (w.shown expression).toList = expression.toList.extract w.start w.stop := by
  rw [shown, String.toList_ofList, List.extract_eq_take_drop]

theorem line_toList (w : Window) (expression : String) :
    (w.line expression).toList =
      dotsIf (0 < w.start) ++ expression.toList.extract w.start w.stop ++
        dotsIf (w.stop < w.length) := by
  rw [line, String.toList_append, String.toList_append, leading_toList, shown_toList,
    trailing_toList]

/-- The caret's column, on the lists: as many characters as the dots and the text before the
place. -/
theorem column_eq (w : Window) {text : List Char} (hplace : w.place ≤ text.length) :
    w.column = (dotsIf (0 < w.start) ++ text.extract w.start w.place).length := by
  rw [column, leading_toList, List.length_append, length_extract hplace]

end Window

/-! ## The caret -/

/-- Any window whose ends stand around its place is drawn with the caret under the place. The line
is cut at the place, and what is in front of the cut is as long as the caret's column says. -/
theorem Points.of_window {w : Window} {expression : String}
    (hlength : w.length = expression.toList.length) (hstart : w.start ≤ w.place)
    (hplace : w.place ≤ w.stop) (hstop : w.stop ≤ w.length)
    (hbefore : w.place - w.start ≤ 20 ∧ (0 < w.start → w.place - w.start = 20))
    (hbehind : w.stop - w.place ≤ 21 ∧ (w.stop < w.length → w.stop - w.place = 21)) :
    Points expression.toList w.place w.start w.stop w.column (w.line expression).toList
      w.caret.toList := by
  rw [hlength] at hstop hbehind
  have hline := w.line_toList expression
  rw [hlength] at hline
  have hcut : (w.line expression).toList =
      (dotsIf (0 < w.start) ++ expression.toList.extract w.start w.place) ++
        (expression.toList.extract w.place w.stop ++
          dotsIf (w.stop < expression.toList.length)) := by
    rw [hline, ← extract_append expression.toList hstart hplace]
    simp only [List.append_assoc]
  have hcolumn := w.column_eq (Nat.le_trans hplace hstop)
  refine
    { start_le := hstart, le_stop := hplace, stop_le := hstop
      before := hbefore, behind := hbehind, above_eq := hline
      whole := fun hs he => ⟨by omega, ?_⟩
      pointer_eq := String.toList_ofList
      take_column := ?_, drop_column := ?_
      at_place := fun hin => ?_, at_end := fun hout => ?_ }
  · rw [hline, hs, he]
    simp [dotsIf, List.extract_eq_take_drop]
  · rw [hcut, hcolumn, List.take_left]
  · rw [hcut, hcolumn, List.drop_left]
  · -- The place is in the text, so the window reaches one character past it at least.
    have hpast : w.place < w.stop := by
      rcases Nat.lt_or_ge w.stop expression.toList.length with hcut | hfull
      · have := hbehind.2 hcut
        omega
      · exact Nat.lt_of_lt_of_le hin hfull
    rw [hcut, hcolumn, List.getElem?_append_right (Nat.le_refl _), Nat.sub_self,
      List.getElem?_append_left (by rw [length_extract hstop]; omega),
      List.extract_eq_take_drop, List.getElem?_take_of_lt (by omega), List.getElem?_drop,
      Nat.add_zero]
  · have hend : w.stop = w.place := by omega
    rw [hcolumn, hcut, hend]
    simp [hout, dotsIf, List.extract_eq_take_drop]

/-- A pointer at any position shows the expression around the position, clamped into the
expression, and the caret stands under it. The two lines are indented alike. -/
theorem pointAt_points (message expression : String) (position : Int) :
    ∃ (place start stop column : Nat) (above pointer : List Char),
      (place : Int) = max 0 (min position expression.toList.length) ∧
      pointAt message expression position =
        message ++ "\n  " ++ String.ofList above ++ "\n  " ++ String.ofList pointer ∧
      Points expression.toList place start stop column above pointer := by
  let w := Window.around expression.toList.length position
  have hplace : w.place = min position.toNat expression.toList.length := rfl
  have hstart : w.start = w.place - 20 := rfl
  have hstop : w.stop = min expression.toList.length (w.place + 20 + 1) := rfl
  have hlength : w.length = expression.toList.length := rfl
  refine ⟨w.place, w.start, w.stop, w.column, (w.line expression).toList, w.caret.toList,
    Window.place_around _ position, ?_, Points.of_window hlength ?_ ?_ ?_ ?_ ?_⟩
  · rw [String.ofList_toList, String.ofList_toList]
    rfl
  all_goals omega

end Reckon
