import Reckon.Proofs.Expr.Ordered
/-
  How the parser fails. Over tables of whole numbers any two levels have an order, so the parser
  never stumbles over a comparison: as long as the frames wait at whole numbers (`Levelled`), a
  failure is a complaint about the tokens or reports a limit. A step keeps the frames so
  (`regular_step`), hence the statement about all tokens: what is not accepted within the limits is
  complained about, with a place and under the text of the expression (`isComplaint_of_parse`).
-/
namespace Reckon

/-- A complaint about the tokens of an expression with the text `source`. -/
def Failure.IsComplaint (source : Option String) (f : Failure) : Prop :=
  ∃ problem position,
    f = .error { problem := .grammar problem, position := some position, expression := source }

namespace Parser

/-- Frames that all wait at whole numbers. -/
def Levelled (stack : List Frame) : Prop := ∀ f ∈ stack, ∃ n : Int, f.floor = .int n

/-- The frames of a mode. -/
def Mode.stack : Mode → List Frame
  | .want stack => stack
  | .called _ stack => stack
  | .opened _ stack => stack
  | .have stack _ => stack

/-- A step goes on with frames at whole numbers, and if it fails, it says what is wrong with the
tokens or which limit is exceeded. -/
def Step.Regular (source : Option String) : Step → Prop
  | .go mode _ => Levelled mode.stack
  | .done _ _ => True
  | .fail f _ => f.IsComplaint source ∨ f.IsLimit
  | .refused f _ => f.IsComplaint source ∨ f.IsLimit

variable {g : Grammar} {stack : List Frame}

theorem isComplaint_complaint (problem : GrammarProblem) (position : Int) :
    (complaint g problem position).IsComplaint g.source := ⟨problem, position, rfl⟩

/-! ## Levels -/

theorem levelled_nil : Levelled [] := List.forall_mem_nil _

theorem Levelled.push {f : Frame} (h : Levelled stack) {n : Int} (hf : f.floor = .int n) :
    Levelled (f :: stack) := List.forall_mem_cons.2 ⟨⟨n, hf⟩, h⟩

theorem Levelled.below {f : Frame} (h : Levelled (f :: stack)) : Levelled stack :=
  (List.forall_mem_cons.1 h).2

/-- The level at the top is a whole number. -/
theorem Levelled.exists_floor (h : Levelled stack) : ∃ n : Int, floor stack = .int n := by
  cases stack with
  | nil => exact ⟨0, rfl⟩
  | cons f below => exact (List.forall_mem_cons.1 h).1

/-- At a whole number the next token goes on, at a whole number, or it does not; that is no
fault. -/
theorem exists_takes (hp : g.precedence.Integral) (m : Int) (next : Option Token) :
    takes g (.int m) next = .ok none
      ∨ ∃ t n, takes g (.int m) next = .ok (some (t, .int n)) := by
  cases next with
  | none => exact Or.inl rfl
  | some t =>
    rw [takes_some]
    by_cases hk : t.kind = .operator
    · rw [if_pos hk]
      cases hl : g.precedence.binaryLevel t.text with
      | none =>
        left
        unfold Precedence.continues
        rw [hl]
        rfl
      | some level =>
        obtain ⟨n, rfl⟩ := hp.binary t.text level hl
        rw [Precedence.continues_int hl]
        by_cases hn : n ≤ m ∧ g.precedence.isRightAssociative t.text = false
        · rw [if_pos hn]
          exact Or.inl rfl
        · rw [if_neg hn]
          exact Or.inr ⟨t, n, rfl⟩
    · rw [if_neg hk]
      exact Or.inl rfl

/-! ## A step -/

/-- A count within the limits is no failure. -/
theorem isLimit_of_check {l : Limits} {limit : Limit} {n : Int} {position : Option Int}
    {expression : Option String} {f : Failure}
    (h : l.check limit n position expression = .error f) : f.IsLimit := by
  obtain rfl := eq_of_check_eq_error h
  rfl

theorem regular_make {source : Option String} {c : Cursor} {k : Cursor → Step}
    (h : (k c.count).Regular source) : (make g c k).Regular source := by
  unfold make
  cases hc : g.limits.check .nodes c.count.nodes with
  | ok _ => exact h
  | error f => exact Or.inr (isLimit_of_check hc)

/-- An operator that goes on opens a frame at its level. -/
theorem regular_settle_of_passes (hp : g.precedence.Integral) (h : Levelled stack)
    {next : Option Token} {e : Expr} {c : Cursor}
    (hnone : takes g (floor stack) next = .ok none →
      (settle g next stack e c).Regular g.source) :
    (settle g next stack e c).Regular g.source := by
  obtain ⟨m, hm⟩ := h.exists_floor
  rcases exists_takes hp m next with ht | ⟨t, n, ht⟩
  · exact hnone (by rw [hm, ht])
  · rw [settle_of_takes (by rw [hm]; exact ht)]
    exact h.push rfl

theorem regular_settle_arg {below : List Frame} (h : Levelled below) {next : Option Token}
    (ht : takes g Precedence.lowest next = .ok none) (name : Token) (before : List Expr) (e : Expr)
    (c : Cursor) : (settle g next (.arg name before :: below) e c).Regular g.source := by
  cases hc : g.limits.check .arguments (before ++ [e]).length (some name.position) g.source with
  | error f =>
    rw [settle_arg_of_error ht hc]
    exact Or.inr (isLimit_of_check hc)
  | ok _ =>
    cases next with
    | none =>
      rw [settle_arg_none hc]
      exact Or.inl (isComplaint_complaint _ _)
    | some t =>
      rw [settle_arg ht hc]
      by_cases hb : t.isClosing = true
      · rw [if_pos hb]
        exact regular_make h
      · rw [if_neg hb]
        by_cases hk : t.kind = .comma
        · rw [if_pos hk]
          exact h.push (n := 0) rfl
        · rw [if_neg hk]
          exact Or.inl (isComplaint_complaint _ _)

theorem regular_settle (hp : g.precedence.Integral) (h : Levelled stack) (next : Option Token)
    (e : Expr) (c : Cursor) : (settle g next stack e c).Regular g.source := by
  induction stack generalizing e c with
  | nil =>
    refine regular_settle_of_passes hp h fun ht => ?_
    rw [settle_nil ht]
    trivial
  | cons f below ih =>
    refine regular_settle_of_passes hp h fun ht => ?_
    cases f with
    | right l op level =>
      have ht : takes g level next = .ok none := ht
      rw [settle_right ht]
      exact regular_make (ih h.below _ _)
    | unary op level =>
      have ht : takes g level next = .ok none := ht
      rw [settle_unary ht]
      exact regular_make (ih h.below _ _)
    | group =>
      cases next with
      | none =>
        rw [settle_group_none]
        exact Or.inl (isComplaint_complaint _ _)
      | some t =>
        rw [settle_group ht]
        by_cases hb : t.isClosing = true
        · rw [if_pos hb]
          exact h.below
        · rw [if_neg hb]
          exact Or.inl (isComplaint_complaint _ _)
    | arg name before => exact regular_settle_arg h.below ht name before e c

theorem regular_startOperand (hp : g.precedence.Integral) (h : Levelled stack) (t : Token)
    (after : Option Token) (c : Cursor) : (startOperand g t after stack c).Regular g.source := by
  unfold startOperand
  by_cases hm : mayEnter g c = true
  · rw [hm]
    simp only [Bool.not_true, Bool.false_eq_true, if_false]
    cases hu : unaryLevel? g t with
    | some level =>
      unfold unaryLevel? at hu
      by_cases hk : t.kind = .operator
      · rw [if_pos hk] at hu
        obtain ⟨n, rfl⟩ := hp.unary t.text level hu
        exact h.push rfl
      · rw [if_neg hk] at hu
        exact absurd hu (by simp)
    | none =>
      by_cases ho : t.isOpening = true
      · simp only [ho, if_true]
        exact h.push (n := 0) rfl
      · simp only [ho, Bool.false_eq_true, if_false]
        cases t.kind with
        | identifier =>
          by_cases ha : after.any Token.isOpening = true
          · simp only [ha, if_true]
            exact h
          · simp only [ha, Bool.false_eq_true, if_false]
            exact regular_make h
        | constant => exact regular_make h
        | parenthesis => exact Or.inl (isComplaint_complaint _ _)
        | operator => exact Or.inl (isComplaint_complaint _ _)
        | comma => exact Or.inl (isComplaint_complaint _ _)
  · rw [Bool.not_eq_true] at hm
    rw [hm]
    exact Or.inr (isLimit_tooDeep _)

/-- A step keeps frames at whole numbers. -/
theorem regular_step (hp : g.precedence.Integral) (t : Token) (after : Option Token) {mode : Mode}
    (h : Levelled mode.stack) (c : Cursor) : (step g t after mode c).Regular g.source := by
  cases mode with
  | want stack => exact regular_startOperand hp h t after c
  | called n stack => exact h
  | opened n stack =>
    rw [step]
    by_cases hb : t.isClosing = true
    · rw [if_pos hb]
      exact regular_make h
    · rw [if_neg hb]
      exact regular_startOperand hp (h.push (f := .arg n []) (n := 0) rfl) t after c
  | «have» stack e => exact regular_settle hp h (some t) e c

/-! ## All tokens -/

theorem regular_run (hp : g.precedence.Integral) (ts : List Token) {mode : Mode}
    (h : Levelled mode.stack) (c : Cursor) : (run g ts mode c).Regular g.source := by
  induction ts generalizing mode c with
  | nil =>
    cases mode with
    | want stack => exact Or.inl (isComplaint_complaint _ _)
    | called n stack => exact Or.inl (isComplaint_complaint _ _)
    | opened n stack => exact Or.inl (isComplaint_complaint _ _)
    | «have» stack e => exact regular_settle hp h none e c
  | cons t ts ih =>
    have hs : (step g t ts.head? mode c).Regular g.source := regular_step hp t ts.head? h c
    rw [run]
    cases hstep : step g t ts.head? mode c with
    | go mode' c' =>
      rw [hstep] at hs
      exact ih hs c'
    | done e c' => trivial
    | fail f c' =>
      rw [hstep] at hs
      exact hs
    | refused f c' =>
      rw [hstep] at hs
      exact hs

variable {p : Precedence} {l : Limits} {source : Option String} {ts : List Token} {f : Failure}

/-- An expression that is not finished is complained about, or a limit is exceeded. -/
theorem of_expression_eq_error (hp : p.Integral)
    (h : (expression (grammarFor p l source ts) ts {}).1 = .error f) :
    f.IsComplaint source ∨ f.IsLimit := by
  have hlevelled : Levelled (Mode.want []).stack := levelled_nil
  have hrun : (run (grammarFor p l source ts) ts (.want []) {}).Regular source :=
    regular_run hp ts hlevelled {}
  unfold expression at h
  by_cases hempty : (ts.isEmpty && !mayEnter (grammarFor p l source ts) {}) = true
  · simp only [hempty, if_true] at h
    obtain rfl := Except.error.inj h
    exact Or.inr (isLimit_tooDeep _)
  · simp only [hempty, Bool.false_eq_true, if_false] at h
    cases hs : run (grammarFor p l source ts) ts (.want []) {} with
    | go mode c =>
      rw [hs] at h
      obtain rfl := Except.error.inj h
      exact Or.inl (isComplaint_complaint (g := grammarFor p l source ts) _ _)
    | done e c =>
      rw [hs] at h
      exact absurd h (by simp)
    | fail f' c =>
      rw [hs] at h hrun
      obtain rfl := Except.error.inj h
      exact hrun
    | refused f' c =>
      rw [hs] at h hrun
      obtain rfl := Except.error.inj h
      exact hrun

/-- Tokens that are not accepted within the limits are complained about. -/
theorem isComplaint_of_parse (hp : p.Integral) (hl : ¬ Exceeds p l source ts)
    (h : (parse p l source ts).1 = .error f) : f.IsComplaint source := by
  have hlimit : ¬ f.IsLimit := fun hf => hl ⟨f, h, hf⟩
  have h : (checkTrailing (grammarFor p l source ts) ts 0
      (expression (grammarFor p l source ts) ts {})).1 = .error f := h
  rcases hout : expression (grammarFor p l source ts) ts {} with ⟨f' | e, c⟩
  · rw [hout] at h
    obtain rfl := Except.error.inj (show Except.error f' = Except.error f from h)
    exact (of_expression_eq_error hp (by rw [hout])).resolve_right hlimit
  · rw [hout] at h
    unfold checkTrailing at h
    simp only at h
    split at h
    · obtain rfl := Except.error.inj h
      exact isComplaint_complaint (g := grammarFor p l source ts) _ _
    · exact absurd h (by simp)

end Parser

end Reckon
