import Reckon.Proofs.Expr.Limits
import Reckon.Proofs.Remnants
/-
  The count of open frames. A frame is counted when it is entered and no longer counted when it is
  left, so between two tokens the parser has counted the frames on its stack, besides those that
  were counted when it started (`Parser.balanced_step`). A run that comes to an end has left all
  that it entered, and one that fails leaves the frames that are open then. The exception is a frame
  that is refused for its depth: it has been counted by then, but it is not open and nobody leaves
  it. So a parse leaves the count as it found it, unless it is refused a frame; then the count is
  one higher, and it stays so until a reset is accepted (`Reader.parse_balanced`).

  What a count that is too high does is said by comparing two runs: with `n` more frames counted a
  run does what it does without them under a limit that is lower by `n` (`Parser.run_deeper`). So
  each refused parse costs later ones a level of nesting (`Reader.parse_unbalanced`).
-/
namespace Reckon

/-! ## Refusals -/

def Problem.isTooDeep : Problem → Bool
  | nestingTooDeep _ => true
  | _ => false

/-- A frame was refused for its depth. -/
def Failure.isTooDeep : Failure → Bool
  | .error e => e.problem.isTooDeep
  | .fault _ => false

/-- The same problem, with another limit of nesting named. -/
def Problem.naming (bound : Int) : Problem → Problem
  | nestingTooDeep _ => nestingTooDeep bound
  | p => p

/-- The same failure, with another limit of nesting named. -/
def Failure.naming (bound : Int) : Failure → Failure
  | .error e => .error { e with problem := e.problem.naming bound }
  | .fault f => .fault f

theorem Failure.naming_of_not_tooDeep {f : Failure} (h : f.isTooDeep = false) (bound : Int) :
    f.naming bound = f := by
  cases f with
  | fault f => rfl
  | error e =>
    obtain ⟨problem, position, expression, cause⟩ := e
    cases problem with
    | nestingTooDeep b => exact absurd h (by simp [Failure.isTooDeep, Problem.isTooDeep])
    | _ => rfl

/-- A count that is judged against a limit is no refusal of a frame. -/
theorem Limits.not_tooDeep_of_check {l : Limits} {limit : Limit} {n : Int}
    {position : Option Int} {expression : Option String} {f : Failure}
    (h : l.check limit n position expression = .error f) : f.isTooDeep = false := by
  obtain rfl := Parser.eq_of_check_eq_error h
  rfl

namespace Parser

/-- Whether an answer is that a frame was refused for its depth. -/
def isTooDeep : Except Failure Expr → Bool
  | .ok _ => false
  | .error f => f.isTooDeep

/-! ## What is counted -/

/-- Frames that are entered and not left yet. While an operand is read its own frame is entered,
too; when it is due, that of the operand is not. -/
def Mode.frames : Mode → Nat
  | .want stack => stack.length
  | .called _ stack => stack.length + 1
  | .opened _ stack => stack.length + 1
  | .have stack _ => stack.length + 1

/-- Besides the `base` frames of before, a step leaves the open frames counted, and none when the
expression is finished. Where it fails, none of the frames of before has been left; where a frame is
refused, this frame is counted as well. -/
def Step.Balanced (base : Nat) : Step → Prop
  | .go mode c => c.depth = base + mode.frames
  | .done _ c => c.depth = base
  | .fail f c => base ≤ c.depth ∧ f.isTooDeep = false
  | .refused f c => base < c.depth ∧ f.isTooDeep = true

variable {g : Grammar} {base : Nat} {c : Cursor} {mode : Mode} {stack : List Frame}

theorem balanced_make {k : Cursor → Step} (hd : base ≤ c.depth) (hk : (k c.count).Balanced base) :
    (make g c k).Balanced base := by
  unfold make
  cases hc : g.limits.check .nodes c.count.nodes with
  | ok _ => exact hk
  | error f => exact ⟨hd, Limits.not_tooDeep_of_check hc⟩

/-- The argument `e` is read: its frame is left, and the call goes on or is complete. -/
theorem balanced_settle_arg {below : List Frame} {next : Option Token}
    (ht : takes g Precedence.lowest next = .ok none) (hd : c.leave.depth = base + below.length + 1)
    (name : Token) (before : List Expr) (e : Expr) :
    (settle g next (.arg name before :: below) e c).Balanced base := by
  have hle : base ≤ c.leave.depth := by omega
  cases hc : g.limits.check .arguments (before ++ [e]).length (some name.position) g.source with
  | error f =>
    rw [settle_arg_of_error ht hc]
    exact ⟨hle, Limits.not_tooDeep_of_check hc⟩
  | ok _ =>
    cases next with
    | none =>
      rw [settle_arg_none hc]
      exact ⟨hle, rfl⟩
    | some t =>
      rw [settle_arg ht hc]
      by_cases hb : t.isClosing = true
      · rw [if_pos hb]
        exact balanced_make hle hd
      · rw [if_neg hb]
        by_cases hk : t.kind = .comma
        · rw [if_pos hk]
          exact hd
        · rw [if_neg hk]
          exact ⟨hle, rfl⟩

/-- An operator that goes on opens a frame, which is not entered yet. -/
theorem balanced_settle_of_passes {next : Option Token} {e : Expr}
    (hd : c.depth = base + stack.length + 1)
    (hnone : takes g (floor stack) next = .ok none → (settle g next stack e c).Balanced base) :
    (settle g next stack e c).Balanced base := by
  cases ht : takes g (floor stack) next with
  | error fault =>
    rw [settle_of_error ht]
    exact ⟨by omega, rfl⟩
  | ok r =>
    cases r with
    | none => exact hnone ht
    | some x =>
      rw [settle_of_takes ht]
      exact hd

/-- Behind an operand one frame after the other is left, until one goes on. -/
theorem balanced_settle {next : Option Token} {e : Expr} (hd : c.depth = base + stack.length + 1) :
    (settle g next stack e c).Balanced base := by
  induction stack generalizing e c with
  | nil =>
    refine balanced_settle_of_passes hd fun ht => ?_
    have hleave : c.leave.depth = base := congrArg (· - 1) hd
    rw [settle_nil ht]
    exact hleave
  | cons f below ih =>
    have hleave : c.leave.depth = base + below.length + 1 := congrArg (· - 1) hd
    have hle : base ≤ c.leave.depth := by omega
    refine balanced_settle_of_passes hd fun ht => ?_
    cases f with
    | right left op level =>
      have ht : takes g level next = .ok none := ht
      rw [settle_right ht]
      exact balanced_make hle (ih hleave)
    | unary op level =>
      have ht : takes g level next = .ok none := ht
      rw [settle_unary ht]
      exact balanced_make hle (ih hleave)
    | group =>
      cases next with
      | none =>
        rw [settle_group_none]
        exact ⟨hle, rfl⟩
      | some t =>
        rw [settle_group ht]
        by_cases hb : t.isClosing = true
        · rw [if_pos hb]
          exact hleave
        · rw [if_neg hb]
          exact ⟨hle, rfl⟩
    | arg name before => exact balanced_settle_arg ht hleave name before e

/-- The frame of an operand is counted first and refused then. -/
theorem balanced_startOperand {t : Token} {after : Option Token}
    (hd : c.depth = base + stack.length) : (startOperand g t after stack c).Balanced base := by
  have henter : c.enter.depth = base + stack.length + 1 := congrArg (· + 1) hd
  have hlt : base < c.enter.depth := by omega
  unfold startOperand
  cases mayEnter g c with
  | false => exact ⟨hlt, rfl⟩
  | true =>
    simp only [Bool.not_true, Bool.false_eq_true, if_false]
    cases unaryLevel? g t with
    | some level => exact henter
    | none =>
      by_cases ho : t.isOpening = true
      · simp only [ho, if_true]
        exact henter
      · simp only [ho, Bool.false_eq_true, if_false]
        cases t.kind with
        | identifier =>
          by_cases ha : after.any Token.isOpening = true
          · simp only [ha, if_true]
            exact henter
          · simp only [ha, Bool.false_eq_true, if_false]
            exact balanced_make (Nat.le_of_lt hlt) henter
        | constant => exact balanced_make (Nat.le_of_lt hlt) henter
        | parenthesis | operator | comma => exact ⟨Nat.le_of_lt hlt, rfl⟩

/-- One token. -/
theorem balanced_step {t : Token} {after : Option Token} (hd : c.depth = base + mode.frames) :
    (step g t after mode c).Balanced base := by
  cases mode with
  | want stack => exact balanced_startOperand hd
  | called name stack => exact hd
  | opened name stack =>
    rw [step]
    by_cases hb : t.isClosing = true
    · rw [if_pos hb]
      have hle : base ≤ c.depth := by omega
      exact balanced_make hle hd
    · rw [if_neg hb]
      exact balanced_startOperand hd
  | «have» stack e => exact balanced_settle hd

theorem balanced_finish (hd : c.depth = base + mode.frames) : (finish g mode c).Balanced base := by
  have hle : base ≤ c.depth := by omega
  cases mode with
  | want stack => exact ⟨hle, rfl⟩
  | called name stack => exact ⟨hle, rfl⟩
  | opened name stack => exact ⟨hle, rfl⟩
  | «have» stack e => exact balanced_settle hd

/-- All tokens, by induction on them: what one step leaves counted is what the next one needs. -/
theorem balanced_run (ts : List Token) (hd : c.depth = base + mode.frames) :
    (run g ts mode c).Balanced base := by
  induction ts generalizing mode c with
  | nil => exact balanced_finish hd
  | cons t ts ih =>
    have hs : (step g t ts.head? mode c).Balanced base := balanced_step hd
    rw [run]
    cases hstep : step g t ts.head? mode c with
    | go mode' c' =>
      rw [hstep] at hs
      exact ih hs
    | done e c' | fail f c' | refused f c' =>
      rw [hstep] at hs
      exact hs

/-- An outcome leaves the count as it was, or one higher if a frame was refused. -/
def Outcome.Balanced (base : Nat) (out : Outcome Expr) : Prop :=
  out.2.depth = base + (isTooDeep out.1).toNat

theorem balanced_expression (ts : List Token) : Outcome.Balanced c.depth (expression g ts c) := by
  have hrun : (run g ts (.want []) c).Balanced c.depth := balanced_run ts rfl
  unfold expression
  cases hempty : ts.isEmpty && !mayEnter g c with
  | true => exact Nat.min_self _
  | false =>
    simp only [Bool.false_eq_true, if_false]
    cases hstep : run g ts (.want []) c with
    | done e c' =>
      rw [hstep] at hrun
      exact hrun
    | go mode c' =>
      rw [hstep] at hrun
      have hle : c.depth ≤ c'.depth := Nat.le.intro hrun.symm
      exact Nat.min_eq_right hle
    | fail f c' =>
      rw [hstep] at hrun
      obtain ⟨hle, hf⟩ := hrun
      show min c'.depth c.depth = c.depth + f.isTooDeep.toNat
      rw [hf, Nat.min_eq_right hle]
      rfl
    | refused f c' =>
      rw [hstep] at hrun
      obtain ⟨hlt, hf⟩ := hrun
      show min c'.depth (c.depth + 1) = c.depth + f.isTooDeep.toNat
      rw [hf, Nat.min_eq_right hlt]
      rfl

theorem balanced_checkTrailing {out : Outcome Expr} (h : Outcome.Balanced base out)
    (ts : List Token) (start : Nat) : Outcome.Balanced base (checkTrailing g ts start out) := by
  obtain ⟨result, c'⟩ := out
  cases result with
  | error f => exact h
  | ok e =>
    unfold checkTrailing
    simp only
    cases (ts.drop (c'.index - start)).head? with
    | none => exact h
    | some t => exact h

/-! ## What the count costs -/

/-- The same cursor with `n` more frames counted. -/
def Cursor.deeper (c : Cursor) (n : Nat) : Cursor := { c with depth := c.depth + n }

/-- The same grammar with `n` levels of nesting less. -/
def Grammar.shallower (g : Grammar) (n : Nat) : Grammar :=
  g.within { g.limits with nestingDepth := g.limits.nestingDepth - n }

/-- The same step with `n` more frames counted, and `bound` named as the limit where a frame is
refused. -/
def Step.deeper (n : Nat) (bound : Int) : Step → Step
  | .go mode c => .go mode (c.deeper n)
  | .done e c => .done e (c.deeper n)
  | .fail f c => .fail f (c.deeper n)
  | .refused f c => .refused (f.naming bound) (c.deeper n)

variable {n : Nat}

/-- A frame that is counted can be left below others. -/
theorem leave_deeper (h : 0 < c.depth) : (c.deeper n).leave = c.leave.deeper n := by
  have hsub : c.depth + n - 1 = c.depth - 1 + n := by omega
  simp only [Cursor.leave, Cursor.deeper, hsub]

theorem enter_deeper : (c.deeper n).enter = c.enter.deeper n := by
  simp only [Cursor.enter, Cursor.deeper, Nat.add_right_comm]

theorem unwind_deeper (c' : Cursor) (depth : Nat) :
    (c'.deeper n).unwind (depth + n) = (c'.unwind depth).deeper n := by
  simp only [Cursor.unwind, Cursor.deeper, Nat.add_min_add_right]

theorem mayEnter_deeper : mayEnter g (c.deeper n) = mayEnter (g.shallower n) c := by
  have hiff : ((c.depth + n : Nat) + 1 : Int) ≤ g.limits.nestingDepth
      ↔ (c.depth + 1 : Int) ≤ g.limits.nestingDepth - n := by omega
  exact decide_eq_decide.2 hiff

theorem make_deeper {k k' : Cursor → Step} {bound : Int}
    (hk : k (c.count.deeper n) = (k' c.count).deeper n bound) :
    make g (c.deeper n) k = (make (g.shallower n) c k').deeper n bound := by
  have hcheck : (g.shallower n).limits.check .nodes c.count.nodes
      = g.limits.check .nodes c.count.nodes := rfl
  have hcount : (c.deeper n).count = c.count.deeper n := rfl
  have hnodes : (c.count.deeper n).nodes = c.count.nodes := rfl
  unfold make
  rw [hcheck, hcount, hnodes]
  cases g.limits.check .nodes c.count.nodes with
  | ok _ => exact hk
  | error f => rfl

/-- An operator that goes on does so however many frames are counted. -/
theorem settle_deeper_of_passes {next : Option Token} {e : Expr} {bound : Int}
    (hnone : takes g (floor stack) next = .ok none →
      settle g next stack e (c.deeper n)
        = (settle (g.shallower n) next stack e c).deeper n bound) :
    settle g next stack e (c.deeper n)
      = (settle (g.shallower n) next stack e c).deeper n bound := by
  cases ht : takes g (floor stack) next with
  | error fault => rw [settle_of_error ht, settle_of_error (g := g.shallower n) ht, Step.deeper]
  | ok r =>
    cases r with
    | none => exact hnone ht
    | some x =>
      rw [settle_of_takes ht, settle_of_takes (g := g.shallower n) ht]
      rfl

theorem settle_arg_deeper {below : List Frame} {next : Option Token} {bound : Int}
    (ht : takes g Precedence.lowest next = .ok none) (hc : 0 < c.depth) (name : Token)
    (before : List Expr) (e : Expr) :
    settle g next (.arg name before :: below) e (c.deeper n)
      = (settle (g.shallower n) next (.arg name before :: below) e c).deeper n bound := by
  have hleave : (c.deeper n).leave = c.leave.deeper n := leave_deeper hc
  cases hcheck : g.limits.check .arguments (before ++ [e]).length (some name.position)
      g.source with
  | error f =>
    rw [settle_arg_of_error ht hcheck, settle_arg_of_error (g := g.shallower n) ht hcheck, hleave,
      Step.deeper]
  | ok _ =>
    cases next with
    | none =>
      rw [settle_arg_none hcheck, settle_arg_none (g := g.shallower n) hcheck, hleave]
      rfl
    | some t =>
      rw [settle_arg ht hcheck, settle_arg (g := g.shallower n) ht hcheck, hleave]
      by_cases hb : t.isClosing = true
      · rw [if_pos hb, if_pos hb]
        exact make_deeper (c := c.leave.advance) rfl
      · rw [if_neg hb, if_neg hb]
        by_cases hk : t.kind = .comma
        · rw [if_pos hk, if_pos hk]
          rfl
        · rw [if_neg hk, if_neg hk]
          rfl

/-- Behind an operand every frame of the stack is counted, so leaving one is the same below other
frames. -/
theorem settle_deeper {next : Option Token} {e : Expr} {bound : Int} (h : stack.length < c.depth) :
    settle g next stack e (c.deeper n)
      = (settle (g.shallower n) next stack e c).deeper n bound := by
  have hleave : (c.deeper n).leave = c.leave.deeper n := leave_deeper (Nat.zero_lt_of_lt h)
  induction stack generalizing e c with
  | nil =>
    refine settle_deeper_of_passes fun ht => ?_
    rw [settle_nil ht, settle_nil (g := g.shallower n) ht, hleave, Step.deeper]
  | cons f below ih =>
    have hbelow : below.length < c.leave.count.depth := Nat.lt_sub_of_add_lt h
    have hcount : (c.leave.count.deeper n).leave = c.leave.count.leave.deeper n :=
      leave_deeper (Nat.zero_lt_of_lt hbelow)
    refine settle_deeper_of_passes fun ht => ?_
    cases f with
    | right left op level =>
      have ht : takes g level next = .ok none := ht
      rw [settle_right ht, settle_right (g := g.shallower n) ht, hleave]
      exact make_deeper (ih hbelow hcount)
    | unary op level =>
      have ht : takes g level next = .ok none := ht
      rw [settle_unary ht, settle_unary (g := g.shallower n) ht, hleave]
      exact make_deeper (ih hbelow hcount)
    | group =>
      cases next with
      | none =>
        rw [settle_group_none, settle_group_none, hleave]
        rfl
      | some t =>
        rw [settle_group ht, settle_group (g := g.shallower n) ht, hleave]
        by_cases hb : t.isClosing = true
        · rw [if_pos hb, if_pos hb]
          rfl
        · rw [if_neg hb, if_neg hb]
          rfl
    | arg name before => exact settle_arg_deeper ht (Nat.zero_lt_of_lt h) name before e

/-- Whether a frame is refused depends on the count and the limit by their difference only. -/
theorem startOperand_deeper (t : Token) (after : Option Token) (stack : List Frame) (c : Cursor) :
    startOperand g t after stack (c.deeper n)
      = (startOperand (g.shallower n) t after stack c).deeper n g.limits.nestingDepth := by
  have hlevel : unaryLevel? (g.shallower n) t = unaryLevel? g t := rfl
  unfold startOperand
  rw [mayEnter_deeper, hlevel, enter_deeper]
  cases mayEnter (g.shallower n) c with
  | false => rfl
  | true =>
    simp only [Bool.not_true, Bool.false_eq_true, if_false]
    cases unaryLevel? g t with
    | some level => rfl
    | none =>
      by_cases ho : t.isOpening = true
      · simp only [ho, if_true]
        rfl
      · simp only [ho, Bool.false_eq_true, if_false]
        cases t.kind with
        | identifier =>
          by_cases ha : after.any Token.isOpening = true
          · simp only [ha, if_true]
            rfl
          · simp only [ha, Bool.false_eq_true, if_false]
            exact make_deeper (c := c.enter.advance) rfl
        | constant => exact make_deeper (c := c.enter.advance) rfl
        | parenthesis | operator | comma => rfl

theorem step_deeper (t : Token) (after : Option Token) (h : mode.frames ≤ c.depth) :
    step g t after mode (c.deeper n)
      = (step (g.shallower n) t after mode c).deeper n g.limits.nestingDepth := by
  cases mode with
  | want stack => exact startOperand_deeper t after stack c
  | called name stack => rfl
  | opened name stack =>
    rw [step, step]
    by_cases hb : t.isClosing = true
    · rw [if_pos hb, if_pos hb]
      exact make_deeper (c := c.advance) rfl
    · rw [if_neg hb, if_neg hb]
      exact startOperand_deeper t after (.arg name [] :: stack) c
  | «have» stack e => exact settle_deeper h

theorem finish_deeper (h : mode.frames ≤ c.depth) :
    finish g mode (c.deeper n)
      = (finish (g.shallower n) mode c).deeper n g.limits.nestingDepth := by
  cases mode with
  | want stack => rfl
  | called name stack => rfl
  | opened name stack => rfl
  | «have» stack e => exact settle_deeper h

/-- With `n` more frames counted a run does what it does under a limit of nesting that is lower by
`n`. The count of the run below is balanced all the time, which is why it never runs out of frames
to leave. -/
theorem run_deeper (ts : List Token) (h : c.depth = base + mode.frames) :
    run g ts mode (c.deeper n)
      = (run (g.shallower n) ts mode c).deeper n g.limits.nestingDepth := by
  have hle : mode.frames ≤ c.depth := by omega
  induction ts generalizing mode c with
  | nil => exact finish_deeper hle
  | cons t ts ih =>
    have hs : (step (g.shallower n) t ts.head? mode c).Balanced base := balanced_step h
    rw [run, run, step_deeper t ts.head? hle]
    cases hstep : step (g.shallower n) t ts.head? mode c with
    | go mode' c' =>
      rw [hstep] at hs
      have hd : c'.depth = base + mode'.frames := hs
      exact ih hd (by omega)
    | done e c' | fail f c' | refused f c' => rfl

/-- The same outcome with `n` more frames counted, and `bound` named as the limit of nesting. -/
def Outcome.deeper (n : Nat) (bound : Int) (out : Outcome Expr) : Outcome Expr :=
  (out.1.mapError (Failure.naming bound), out.2.deeper n)

theorem expression_deeper (ts : List Token) (c : Cursor) :
    expression g ts (c.deeper n)
      = (expression (g.shallower n) ts c).deeper n g.limits.nestingDepth := by
  have hrun : (run (g.shallower n) ts (.want []) c).Balanced c.depth := balanced_run ts rfl
  have hstart : c.depth = c.depth + (Mode.want []).frames := rfl
  have hdepth : (c.deeper n).depth + 1 = c.depth + 1 + n := Nat.add_right_comm _ _ _
  unfold expression
  rw [mayEnter_deeper, run_deeper ts hstart, hdepth]
  cases ts.isEmpty && !mayEnter (g.shallower n) c with
  | true =>
    simp only [if_true, enter_deeper]
    exact Prod.ext rfl (unwind_deeper c.enter (c.depth + 1))
  | false =>
    simp only [Bool.false_eq_true, if_false]
    cases hstep : run (g.shallower n) ts (.want []) c with
    | done e c' => rfl
    | go mode c' => exact Prod.ext rfl (unwind_deeper c' c.depth)
    | fail f c' =>
      rw [hstep] at hrun
      obtain ⟨-, hf⟩ := hrun
      refine Prod.ext ?_ (unwind_deeper c' c.depth)
      exact congrArg Except.error (Failure.naming_of_not_tooDeep hf _).symm
    | refused f c' => exact Prod.ext rfl (unwind_deeper c' (c.depth + 1))

theorem checkTrailing_deeper (ts : List Token) (start : Nat) (bound : Int) (out : Outcome Expr) :
    checkTrailing g ts start (out.deeper n bound)
      = (checkTrailing (g.shallower n) ts start out).deeper n bound := by
  obtain ⟨result, c'⟩ := out
  cases result with
  | error f => rfl
  | ok e =>
    have hout : Outcome.deeper n bound (.ok e, c') = (.ok e, c'.deeper n) := rfl
    have hindex : (c'.deeper n).index = c'.index := rfl
    rw [hout]
    unfold checkTrailing
    simp only [hindex]
    cases (ts.drop (c'.index - start)).head? with
    | none => rfl
    | some t => rfl

end Parser

/-! ## Readers -/

namespace Reader

/-- A parse of a reader in any state: the count is as it was, or one higher if a frame was
refused. -/
theorem depth_parse (r : Reader) (trailing : Bool) :
    (r.parse trailing).2.cursor.depth
      = r.cursor.depth + (Parser.isTooDeep (r.parse trailing).1).toNat := by
  unfold parse
  cases r.tokens with
  | none => rfl
  | some ts =>
    have hout : Parser.Outcome.Balanced r.cursor.depth
        (Parser.expression (r.grammar ts) (ts.drop r.cursor.index) r.cursor) :=
      Parser.balanced_expression _
    cases trailing with
    | false => exact hout
    | true => exact Parser.balanced_checkTrailing hout _ _

/-- The frames that are counted although nothing is open: `n` to start with, and one for each parse
that is refused a frame. A reset that is accepted forgets them. -/
def overcount (r : Reader) (n : Nat) : List Use → Nat
  | [] => n
  | .reset tokens precedence source :: history =>
    overcount (r.use (.reset tokens precedence source))
      (if (r.reset tokens precedence source).1.isOk then 0 else n) history
  | .parse trailing :: history =>
    overcount (r.use (.parse trailing)) (n + (Parser.isTooDeep (r.parse trailing).1).toNat) history

theorem depth_reset (r : Reader) (tokens : Option (List Token)) (precedence : Precedence.Source)
    (source : Option String) : (r.reset tokens precedence source).2.cursor.depth
      = if (r.reset tokens precedence source).1.isOk then 0 else r.cursor.depth := by
  obtain ⟨f, hall⟩ | ⟨p, hall⟩ := reset_cases tokens precedence source
  · rw [hall r]
    rfl
  · rw [hall r]
    rfl

/-- Any uses one after the other. -/
theorem depth_uses (r : Reader) (history : List Use) :
    (r.uses history).cursor.depth = r.overcount r.cursor.depth history := by
  induction history generalizing r with
  | nil => rfl
  | cons u history ih =>
    have hrest : (r.uses (u :: history)).cursor.depth
        = (r.use u).overcount (r.use u).cursor.depth history := ih (r.use u)
    cases u with
    | reset tokens precedence source =>
      rw [hrest, overcount, ← depth_reset]
      rfl
    | parse trailing =>
      rw [hrest, overcount, ← depth_parse]
      rfl

/-- The reader with no frames counted, under another limit of nesting. -/
def afresh (r : Reader) (bound : Int) : Reader :=
  { r with
    limits := { r.limits with nestingDepth := bound }
    cursor := { r.cursor with depth := 0 } }

/-- Frames that are counted are so many levels of nesting less. -/
theorem parse_afresh (r : Reader) (trailing : Bool) :
    (r.parse trailing).1
      = ((r.afresh (r.limits.nestingDepth - r.cursor.depth)).parse trailing).1.mapError
          (Failure.naming r.limits.nestingDepth) := by
  have hcursor : r.cursor = Parser.Cursor.deeper { r.cursor with depth := 0 } r.cursor.depth := by
    simp only [Parser.Cursor.deeper, Nat.zero_add]
  have htokens : (r.afresh (r.limits.nestingDepth - r.cursor.depth)).tokens = r.tokens := rfl
  unfold parse
  rw [htokens]
  cases r.tokens with
  | none => rfl
  | some ts =>
    have hout : Parser.expression (r.grammar ts) (ts.drop r.cursor.index) r.cursor
        = (Parser.expression ((r.grammar ts).shallower r.cursor.depth) (ts.drop r.cursor.index)
            { r.cursor with depth := 0 }).deeper r.cursor.depth r.limits.nestingDepth :=
      (congrArg _ hcursor).trans (Parser.expression_deeper _ _)
    cases trailing with
    | false => exact congrArg Prod.fst hout
    | true =>
      simp only [if_true]
      rw [hout, Parser.checkTrailing_deeper]
      rfl

/-- However a reader has been used, a parse leaves the count of open frames as it found it, whether
it returns an expression or fails, unless a frame is refused for its depth; then the count is one
higher. So what is counted after any uses are the parses that were refused a frame since the last
reset that was accepted, on top of what was counted to start with if there was none. The next parse
has so many levels of nesting less, and answers otherwise as if nothing were counted. -/
theorem parse_balanced (r : Reader) (history : List Use) (trailing : Bool) :
    ((r.uses history).parse trailing).2.cursor.depth
        = (r.uses history).cursor.depth
          + (Parser.isTooDeep ((r.uses history).parse trailing).1).toNat
      ∧ (r.uses history).cursor.depth = r.overcount r.cursor.depth history
      ∧ ((r.uses history).parse trailing).1
        = (((r.uses history).afresh
            (r.limits.nestingDepth - r.overcount r.cursor.depth history)).parse trailing).1.mapError
              (Failure.naming r.limits.nestingDepth) := by
  have hcount := r.depth_uses history
  have hlater := (r.uses history).parse_afresh trailing
  rw [hcount, r.limits_uses history] at hlater
  exact ⟨(r.uses history).depth_parse trailing, hcount, hlater⟩

/-- The tokens of `-1`. -/
def negatedTokens : List Token := [⟨.operator, "-", 0⟩, ⟨.constant, "1", 1⟩]

/-- Where one frame may be open the operand of `-1` is refused, and with it counted, the operand by
itself is refused as well. -/
theorem parse_unbalanced :
    ∃ r, create (some negatedTokens) .standard none { nestingDepth := 1 } = .ok r
      ∧ r.cursor.depth = 0
      ∧ (r.parse true).1 = .error (.error
          { problem := .nestingTooDeep 1, position := some 1, expression := none })
      ∧ (r.parse true).2.cursor.depth = 1
      ∧ ((r.parse true).2.parse true).1 = .error (.error
          { problem := .nestingTooDeep 1, position := some 1, expression := none })
      ∧ (((r.parse true).2.afresh 1).parse true).1 = .ok (.constant "1" 1) :=
  ⟨_, rfl, rfl, rfl, rfl, rfl, rfl⟩

end Reader

end Reckon
