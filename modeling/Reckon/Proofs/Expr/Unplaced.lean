import Reckon.Expr.Parser
import Reckon.Proofs.Expr.Agreement
/-
  Parsing does not look at positions. A position is copied into nodes and errors, and nothing is
  decided by it: to forget positions and then to parse comes to the same as to parse and then to
  forget them. This is so for every step of the parser (`Parser.step_bare`), hence for every run
  (`Parser.run_bare`). So tokens of the same kinds and texts have trees that are the same but for
  positions, or they fail alike at different places, and the cursor is left at the same token
  (`Parser.parse_of_words`).
-/
namespace Reckon

/-! ## Forgetting positions -/

/-- A token without its position: its kind and its text. -/
def Token.word (t : Token) : Token.Kind × String := (t.kind, t.text)

/-- The token at the start. -/
def Token.bare (t : Token) : Token := { t with position := 0 }

/-- Tokens of the same words are the same at the start. -/
theorem Token.map_bare_of_words {ts ts' : List Token}
    (h : ts.map Token.word = ts'.map Token.word) : ts.map Token.bare = ts'.map Token.bare := by
  have hbare : Token.bare = (fun w : Token.Kind × String => (⟨w.1, w.2, 0⟩ : Token)) ∘ Token.word :=
    rfl
  rw [hbare, ← List.map_map, h, List.map_map]

/-- The failure at the start, if it has a place, of an expression that is not shown. -/
def Failure.atStart : Failure → Failure
  | .error e => .error { e with position := e.position.map fun _ => 0, expression := none }
  | .fault f => .fault f

theorem Failure.bare_atStart (f : Failure) : f.atStart.bare = f.bare := by
  cases f with
  | error e => rfl
  | fault f => rfl

namespace Parser

def Grammar.bare (g : Grammar) : Grammar := { g with source := none, stop := 0 }

def Frame.bare : Frame → Frame
  | right l op level => right l.bare op.bare level
  | unary op level => unary op.bare level
  | group => group
  | arg name before => arg name.bare (before.map Expr.bare)

def Mode.bare : Mode → Mode
  | want stack => want (stack.map Frame.bare)
  | called name stack => called name.bare (stack.map Frame.bare)
  | opened name stack => opened name.bare (stack.map Frame.bare)
  | «have» stack e => «have» (stack.map Frame.bare) e.bare

def Step.bare : Step → Step
  | go mode c => go mode.bare c
  | done e c => done e.bare c
  | fail f c => fail f.atStart c
  | refused f c => refused f.atStart c

/-- What parsing comes to without positions. -/
def bare : Outcome Expr → Outcome Expr
  | (.ok e, c) => (.ok e.bare, c)
  | (.error f, c) => (.error f.atStart, c)

/-! ## Steps -/

variable {g : Grammar}

theorem floor_bare (stack : List Frame) : floor (stack.map Frame.bare) = floor stack := by
  cases stack with
  | nil => rfl
  | cons f below =>
    cases f with
    | right | unary | group | arg => rfl

theorem takes_bare (level : Level) (next : Option Token) :
    takes g.bare level (next.map Token.bare)
      = (takes g level next).map (Option.map fun taken => (taken.1.bare, taken.2)) := by
  cases next with
  | none => rfl
  | some t =>
    have hkind : t.bare.kind = t.kind := rfl
    rw [Option.map_some, takes, takes, hkind]
    by_cases hk : t.kind = .operator
    · rw [if_pos hk, if_pos hk]
      show (g.precedence.continues level t.text).map _ = _
      cases g.precedence.continues level t.text with
      | error f => rfl
      | ok found =>
        cases found with
        | none => rfl
        | some l => rfl
    · rw [if_neg hk, if_neg hk]
      rfl

/-- A node too many is reported without a place. -/
theorem make_bare {next next' : Cursor → Step} (h : ∀ c, (next c).bare = next' c) (c : Cursor) :
    (make g c next).bare = make g.bare c next' := by
  have hlimits : g.bare.limits = g.limits := rfl
  rw [make, make, hlimits, Limits.check]
  by_cases hlimit : (c.count.nodes : Int) > Limit.nodes.bound g.limits
  · rw [if_pos hlimit]
    rfl
  · rw [if_neg hlimit]
    exact h c.count

theorem startOperand_bare (t : Token) (after : Option Token) (stack : List Frame) (c : Cursor) :
    (startOperand g t after stack c).bare
      = startOperand g.bare t.bare (after.map Token.bare) (stack.map Frame.bare) c := by
  have henter : mayEnter g.bare c = mayEnter g c := rfl
  have hlevel : unaryLevel? g.bare t.bare = unaryLevel? g t := rfl
  have hopening : t.bare.isOpening = t.isOpening := rfl
  have hkind : t.bare.kind = t.kind := rfl
  have hafter : (after.map Token.bare).any Token.isOpening = after.any Token.isOpening := by
    cases after with
    | none => rfl
    | some u => rfl
  rw [startOperand, startOperand, henter, hlevel, hopening, hkind, hafter]
  cases mayEnter g c with
  | false => rfl
  | true =>
    cases unaryLevel? g t with
    | some level => rfl
    | none =>
      cases t.isOpening with
      | true => rfl
      | false =>
        cases t.kind with
        | identifier =>
          cases after.any Token.isOpening with
          | true => rfl
          | false => exact make_bare (fun _ => rfl) _
        | constant => exact make_bare (fun _ => rfl) _
        | parenthesis | operator | comma => rfl

/-- Too many arguments are reported at the name that is called. -/
theorem check_bare (count : Int) (name : Token) :
    (g.limits.check .arguments count (some name.position) g.source).mapError Failure.atStart
      = g.bare.limits.check .arguments count (some name.bare.position) g.bare.source := by
  have hlimits : g.bare.limits = g.limits := rfl
  rw [hlimits, Limits.check, Limits.check]
  by_cases hlimit : count > Limit.arguments.bound g.limits
  · rw [if_pos hlimit, if_pos hlimit]
    rfl
  · rw [if_neg hlimit, if_neg hlimit]
    rfl

/-- An operand that is complete, with the frame below it that waits for it: by recursion on the
stack, as frames are completed. -/
theorem settle_bare (next : Option Token) (stack : List Frame) (e : Expr) (c : Cursor) :
    (settle g next stack e c).bare
      = settle g.bare (next.map Token.bare) (stack.map Frame.bare) e.bare c := by
  induction stack generalizing e c with
  | nil =>
    rw [List.map_nil, settle, settle, takes_bare]
    cases takes g (floor []) next with
    | error f => rfl
    | ok taken =>
      cases taken with
      | none => rfl
      | some taken => rfl
  | cons f below ih =>
    rw [settle, settle, takes_bare, floor_bare]
    cases takes g (floor (f :: below)) next with
    | error f => rfl
    | ok taken =>
      cases taken with
      | some taken => rfl
      | none =>
        cases f with
        | right l op level => exact make_bare (fun _ => ih _ _) _
        | unary op level => exact make_bare (fun _ => ih _ _) _
        | group =>
          cases next with
          | none => rfl
          | some t => exact apply_ite Step.bare _ _ _
        | arg name before =>
          have hargs : before.map Expr.bare ++ [e.bare] = (before ++ [e]).map Expr.bare := by simp
          have hcall : (Expr.call name.text (before ++ [e]) name.position).bare
              = .call name.text ((before ++ [e]).map Expr.bare) 0 := by
            rw [Expr.bare, Expr.bareAll_eq_map]
          simp only [Frame.bare, List.map_cons, Except.map, Option.map_none, hargs, List.length_map,
            ← check_bare]
          cases g.limits.check .arguments (before ++ [e]).length (some name.position) g.source with
          | error f => rfl
          | ok _ =>
            cases next with
            | none => rfl
            | some t =>
              show Step.bare (ite _ _ _) = ite (t.isClosing = true) _ _
              cases t.isClosing with
              | true => exact make_bare (fun _ => by rw [Step.bare, Mode.bare, hcall]; rfl) _
              | false => exact apply_ite Step.bare (t.kind = .comma) _ _

theorem step_bare (t : Token) (after : Option Token) (mode : Mode) (c : Cursor) :
    (step g t after mode c).bare = step g.bare t.bare (after.map Token.bare) mode.bare c := by
  cases mode with
  | want stack => exact startOperand_bare t after stack c
  | called name stack => rfl
  | opened name stack =>
    show Step.bare (ite _ _ _) = ite (t.isClosing = true) _ _
    cases t.isClosing with
    | true => exact make_bare (fun _ => rfl) _
    | false => exact startOperand_bare t after (.arg name [] :: stack) c
  | «have» stack e => exact settle_bare (some t) stack e c

theorem finish_bare (mode : Mode) (c : Cursor) :
    (finish g mode c).bare = finish g.bare mode.bare c := by
  cases mode with
  | want | called | opened => rfl
  | «have» stack e => exact settle_bare none stack e c

/-- By recursion on the tokens, as a step leaves a mode for the rest of them. -/
theorem run_bare (ts : List Token) (mode : Mode) (c : Cursor) :
    (run g ts mode c).bare = run g.bare (ts.map Token.bare) mode.bare c := by
  induction ts generalizing mode c with
  | nil => exact finish_bare mode c
  | cons t ts ih =>
    rw [List.map_cons, run, run, List.head?_map, ← step_bare]
    cases step g t ts.head? mode c with
    | go mode c => exact ih mode c
    | done | fail | refused => rfl

theorem expression_bare (ts : List Token) (c : Cursor) :
    bare (expression g ts c) = expression g.bare (ts.map Token.bare) c := by
  have hstart : (if ts.isEmpty && !mayEnter g c then Step.refused (tooDeep g g.stop) c.enter
        else run g ts (.want []) c).bare
      = if (ts.map Token.bare).isEmpty && !mayEnter g.bare c then
          Step.refused (tooDeep g.bare g.bare.stop) c.enter
        else run g.bare (ts.map Token.bare) (.want []) c := by
    rw [apply_ite Step.bare, run_bare, List.isEmpty_map]
    rfl
  rw [expression, expression, ← hstart]
  cases (if ts.isEmpty && !mayEnter g c then Step.refused (tooDeep g g.stop) c.enter
        else run g ts (.want []) c) with
  | go | done | fail | refused => rfl

theorem checkTrailing_bare (ts : List Token) (start : Nat) (out : Outcome Expr) :
    bare (checkTrailing g ts start out)
      = checkTrailing g.bare (ts.map Token.bare) start (bare out) := by
  obtain ⟨result, c⟩ := out
  cases result with
  | error f => rfl
  | ok e =>
    rw [bare, checkTrailing, checkTrailing, ← List.map_drop, List.head?_map]
    cases (ts.drop (c.index - start)).head? with
    | none => rfl
    | some t => rfl

variable {p : Precedence} {l : Limits} {source source' : Option String} {ts ts' : List Token}

/-- To parse and then to forget positions is to parse tokens without positions. -/
theorem parse_bare : bare (parse p l source ts)
    = checkTrailing ⟨p, l, none, 0⟩ (ts.map Token.bare) 0
        (expression ⟨p, l, none, 0⟩ (ts.map Token.bare) {}) := by
  have hg : (grammarFor p l source ts).bare = ⟨p, l, none, 0⟩ := rfl
  rw [← hg, ← expression_bare, ← checkTrailing_bare]
  rfl

/-- Outcomes of parsing that are the same but for positions. -/
def Same (out out' : Outcome Expr) : Prop :=
  ((∃ e e', out.1 = .ok e ∧ out'.1 = .ok e' ∧ e.Same e')
      ∨ ∃ f f', out.1 = .error f ∧ out'.1 = .error f' ∧ f.bare = f'.bare)
    ∧ out.2 = out'.2

theorem same_of_bare {out out' : Outcome Expr} (h : bare out = bare out') : Same out out' := by
  obtain ⟨result, c⟩ := out
  obtain ⟨result', c'⟩ := out'
  cases result with
  | ok e =>
    cases result' with
    | ok e' =>
      obtain ⟨he, hc⟩ := Prod.mk.inj h
      exact ⟨Or.inl ⟨e, e', rfl, rfl, Except.ok.inj he⟩, hc⟩
    | error f' => exact absurd (congrArg Prod.fst h) (by simp [bare])
  | error f =>
    cases result' with
    | ok e' => exact absurd (congrArg Prod.fst h) (by simp [bare])
    | error f' =>
      obtain ⟨hf, hc⟩ := Prod.mk.inj h
      have hbare := congrArg Failure.bare (Except.error.inj hf)
      rw [Failure.bare_atStart, Failure.bare_atStart] at hbare
      exact ⟨Or.inr ⟨f, f', rfl, rfl, hbare⟩, hc⟩

/-- Tokens of the same kinds and texts parse alike, wherever they stand. -/
theorem parse_of_words (h : ts.map Token.word = ts'.map Token.word) :
    Same (parse p l source ts) (parse p l source' ts') := by
  refine same_of_bare ?_
  rw [parse_bare, parse_bare, Token.map_bare_of_words h]

end Parser

end Reckon
