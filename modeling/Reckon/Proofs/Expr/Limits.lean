import Reckon.Proofs.Expr.Acceptance
/-
  What limits do to the parser: under tighter limits it does the same as under looser ones, or
  it reports a limit, and the limit that it reports is one that the looser ones set higher
  (`run_raised`). So a limit decides whether an expression is accepted, but never what it means.
-/
namespace Reckon

/-- A limit is exceeded. -/
def Failure.IsLimit : Failure → Prop
  | .error e => e.problem.stage = .limit
  | .fault _ => False

/-- Limits that admit at least as much to the parser. -/
structure Limits.Within (l l' : Limits) : Prop where
  nestingDepth : l.nestingDepth ≤ l'.nestingDepth
  nodes : l.nodes ≤ l'.nodes
  arguments : l.arguments ≤ l'.arguments

theorem Limits.Within.bound_le {l l' : Limits} (h : l.Within l') {limit : Limit}
    (hl : limit ≠ .expressionLength) : limit.bound l ≤ limit.bound l' := by
  cases limit with
  | expressionLength => exact absurd rfl hl
  | nestingDepth => exact h.nestingDepth
  | nodes => exact h.nodes
  | arguments => exact h.arguments

/-- What is reported when a limit of the parser is exceeded: frames by a problem of their own. -/
def Limit.problem (l : Limits) (actual : Int) : Limit → Problem
  | .nestingDepth => .nestingTooDeep l.nestingDepth
  | limit => .limit limit.label (limit.bound l) actual

/-- A failure reports that a limit is exceeded. -/
def Failure.Reports (l : Limits) (limit : Limit) : Failure → Prop
  | .error e => ∃ actual, limit.bound l < actual ∧ e.problem = limit.problem l actual
  | .fault _ => False

theorem Failure.Reports.isLimit {l : Limits} {limit : Limit} {f : Failure}
    (h : f.Reports l limit) : f.IsLimit := by
  cases f with
  | fault f => exact h.elim
  | error e =>
    obtain ⟨actual, -, hproblem⟩ := h
    show e.problem.stage = .limit
    rw [hproblem]
    cases limit with
    | expressionLength | nestingDepth | nodes | arguments => rfl

/-- A limit is exceeded that `l'` sets higher. -/
def Failure.Raised (l l' : Limits) (f : Failure) : Prop :=
  ∃ limit : Limit, limit.bound l < limit.bound l' ∧ f.Reports l limit

theorem Failure.Raised.isLimit {l l' : Limits} {f : Failure} (h : f.Raised l l') : f.IsLimit := by
  obtain ⟨limit, -, hf⟩ := h
  exact hf.isLimit

/-- A count is judged alike under both limits, or it is too large for the tighter one. -/
theorem Limits.Within.check {l l' : Limits} (h : l.Within l') {limit : Limit}
    (hl : limit = .nodes ∨ limit = .arguments) (n : Int) (position : Option Int)
    (expression : Option String) :
    l.check limit n position expression = l'.check limit n position expression
      ∨ ∃ f, l.check limit n position expression = .error f ∧ f.Raised l l' := by
  have hb : limit.bound l ≤ limit.bound l' := h.bound_le (by rcases hl with rfl | rfl <;> decide)
  by_cases hsame : limit.bound l = limit.bound l'
  · left
    simp only [Limits.check, Error.ofLimit, hsame]
  · by_cases hn : n ≤ limit.bound l
    · exact Or.inl ((Parser.check_of_le hn).trans (Parser.check_of_le (by omega)).symm)
    · have hgt : n > limit.bound l := by omega
      refine Or.inr ⟨.error (.ofLimit l limit n position expression), Parser.check_of_lt hgt,
        limit, by omega, n, hgt, ?_⟩
      rcases hl with rfl | rfl <;> rfl

namespace Parser

/-- The same grammar under other limits. -/
def Grammar.within (g : Grammar) (l : Limits) : Grammar := { g with limits := l }

/-- A step that reports a limit. -/
def Step.IsLimit : Step → Prop
  | .fail f _ => f.IsLimit
  | .refused f _ => f.IsLimit
  | _ => False

/-- A step that fails in a way. -/
def Step.Fails (P : Failure → Prop) : Step → Prop
  | .fail f _ => P f
  | .refused f _ => P f
  | _ => False

theorem Step.IsLimit.fails {s : Step} (h : s.IsLimit) : s.Fails Failure.IsLimit := by
  cases s with
  | fail f c => exact h
  | refused f c => exact h
  | go mode c => exact h.elim
  | done e c => exact h.elim

/-- A step that reports a limit which `l'` sets higher. -/
def Step.Raised (l l' : Limits) (s : Step) : Prop := s.Fails (Failure.Raised l l')

theorem Step.Raised.isLimit {l l' : Limits} {s : Step} (h : s.Raised l l') : s.IsLimit := by
  cases s with
  | fail f c => exact Failure.Raised.isLimit h
  | refused f c => exact Failure.Raised.isLimit h
  | go mode c => exact h.elim
  | done e c => exact h.elim

variable {g : Grammar} {l : Limits}

theorem isLimit_tooDeep (position : Int) : (tooDeep g position).IsLimit := rfl

theorem raised_tooDeep (h : g.limits.nestingDepth < l.nestingDepth) (position : Int) :
    (tooDeep g position).Raised g.limits l :=
  ⟨.nestingDepth, h, g.limits.nestingDepth + 1, Int.lt_succ _, rfl⟩

theorem make_raised (h : g.limits.Within l) {c : Cursor} {k k' : Cursor → Step}
    (hk : k c.count = k' c.count ∨ (k c.count).Raised g.limits l) :
    make g c k = make (g.within l) c k' ∨ (make g c k).Raised g.limits l := by
  rcases h.check (Or.inl rfl) c.count.nodes none none with hsame | ⟨f, hf, hraised⟩
  · have hw : (g.within l).limits.check .nodes c.count.nodes
        = g.limits.check .nodes c.count.nodes := hsame.symm
    cases hc : g.limits.check .nodes c.count.nodes with
    | ok u =>
      have hg : make g c k = k c.count := by unfold make; rw [hc]
      have hg' : make (g.within l) c k' = k' c.count := by unfold make; rw [hw, hc]
      rw [hg, hg']
      exact hk
    | error f =>
      left
      unfold make
      rw [hw, hc]
  · right
    unfold make
    rw [hf]
    exact hraised

/-- Completing frames is the same, or a limit is exceeded. -/
theorem settle_raised (h : g.limits.Within l) (next : Option Token) (stack : List Frame) (e : Expr)
    (c : Cursor) :
    settle g next stack e c = settle (g.within l) next stack e c
      ∨ (settle g next stack e c).Raised g.limits l := by
  induction stack generalizing e c with
  | nil =>
    left
    rw [settle.eq_def, settle.eq_def (g.within l)]
    rfl
  | cons f below ih =>
    cases ht : takes g (floor (f :: below)) next with
    | error fault =>
      left
      rw [settle_of_error ht, settle_of_error (g := g.within l) ht]
    | ok r =>
      cases r with
      | some x =>
        left
        rw [settle_of_takes ht, settle_of_takes (g := g.within l) ht]
      | none =>
        cases f with
        | right left op level =>
          have ht : takes g level next = .ok none := ht
          rw [settle_right ht, settle_right (g := g.within l) ht]
          exact make_raised h (ih _ _)
        | unary op level =>
          have ht : takes g level next = .ok none := ht
          rw [settle_unary ht, settle_unary (g := g.within l) ht]
          exact make_raised h (ih _ _)
        | group =>
          left
          cases next with
          | none => rw [settle_group_none, settle_group_none]; rfl
          | some t => rw [settle_group ht, settle_group (g := g.within l) ht]; rfl
        | arg n before =>
          rcases h.check (Or.inr rfl) (before ++ [e]).length (some n.position) g.source
            with hsame | ⟨f, hf, hraised⟩
          · cases hc : g.limits.check .arguments (before ++ [e]).length (some n.position)
                g.source with
            | error f =>
              left
              rw [settle_arg_of_error ht hc,
                settle_arg_of_error (g := g.within l) ht (hsame.symm.trans hc)]
            | ok u =>
              have hc' := hsame.symm.trans hc
              cases next with
              | none =>
                left
                rw [settle_arg_none hc, settle_arg_none (g := g.within l) hc']
                rfl
              | some t =>
                rw [settle_arg ht hc, settle_arg (g := g.within l) ht hc']
                by_cases hb : t.isClosing = true
                · rw [if_pos hb, if_pos hb]
                  exact make_raised h (Or.inl rfl)
                · rw [if_neg hb, if_neg hb]
                  exact Or.inl rfl
          · right
            rw [settle_arg_of_error ht hf]
            exact hraised

theorem startOperand_raised (h : g.limits.Within l) (t : Token) (after : Option Token)
    (stack : List Frame) (c : Cursor) :
    startOperand g t after stack c = startOperand (g.within l) t after stack c
      ∨ (startOperand g t after stack c).Raised g.limits l := by
  have hd := h.nestingDepth
  by_cases hm : mayEnter g c = true
  · have hm' : mayEnter (g.within l) c = true := by
      have hc : (c.depth + 1 : Int) ≤ g.limits.nestingDepth := of_decide_eq_true hm
      exact mayEnter_of_le (g := g.within l) (Int.le_trans hc hd)
    have hu : unaryLevel? (g.within l) t = unaryLevel? g t := rfl
    unfold startOperand
    rw [hm, hm', hu]
    simp only [Bool.not_true, Bool.false_eq_true, if_false]
    cases unaryLevel? g t with
    | some level => exact Or.inl rfl
    | none =>
      by_cases ho : t.isOpening = true
      · left
        simp only [ho, if_true]
      · simp only [ho, Bool.false_eq_true, if_false]
        cases hk : t.kind with
        | identifier =>
          by_cases ha : after.any Token.isOpening = true
          · left
            simp only [ha, if_true]
          · simp only [ha, Bool.false_eq_true, if_false]
            exact make_raised h (Or.inl rfl)
        | constant => exact make_raised h (Or.inl rfl)
        | parenthesis => exact Or.inl rfl
        | operator => exact Or.inl rfl
        | comma => exact Or.inl rfl
  · rw [Bool.not_eq_true] at hm
    by_cases hsame : g.limits.nestingDepth = l.nestingDepth
    · left
      have hm' : mayEnter (g.within l) c = false := by
        rw [← hm]
        unfold mayEnter Grammar.within
        rw [hsame]
      have hdeep : tooDeep (g.within l) t.position = tooDeep g t.position := by
        unfold tooDeep Grammar.within
        rw [hsame]
      unfold startOperand
      rw [hm, hm', hdeep]
      rfl
    · right
      unfold startOperand
      rw [hm]
      exact raised_tooDeep (by omega) _

theorem step_raised (h : g.limits.Within l) (t : Token) (after : Option Token) (mode : Mode)
    (c : Cursor) :
    step g t after mode c = step (g.within l) t after mode c
      ∨ (step g t after mode c).Raised g.limits l := by
  cases mode with
  | want stack => exact startOperand_raised h t after stack c
  | called n stack => exact Or.inl rfl
  | opened n stack =>
    rw [step, step]
    by_cases hb : t.isClosing = true
    · rw [if_pos hb, if_pos hb]
      exact make_raised h (Or.inl rfl)
    · rw [if_neg hb, if_neg hb]
      exact startOperand_raised h t after _ c
  | «have» stack e => exact settle_raised h (some t) stack e c

theorem finish_raised (h : g.limits.Within l) (mode : Mode) (c : Cursor) :
    finish g mode c = finish (g.within l) mode c ∨ (finish g mode c).Raised g.limits l := by
  cases mode with
  | want stack => exact Or.inl rfl
  | called n stack => exact Or.inl rfl
  | opened n stack => exact Or.inl rfl
  | «have» stack e => exact settle_raised h none stack e c

/-- Under tighter limits the parser does the same, or it reports a limit that the looser ones set
higher. -/
theorem run_raised (h : g.limits.Within l) (ts : List Token) (mode : Mode) (c : Cursor) :
    run g ts mode c = run (g.within l) ts mode c ∨ (run g ts mode c).Raised g.limits l := by
  induction ts generalizing mode c with
  | nil => exact finish_raised h mode c
  | cons t ts ih =>
    rw [run, run]
    rcases step_raised h t ts.head? mode c with hs | hs
    · rw [← hs]
      cases hstep : step g t ts.head? mode c with
      | go mode' c' => exact ih mode' c'
      | done e c' => exact Or.inl rfl
      | fail f c' => exact Or.inl rfl
      | refused f c' => exact Or.inl rfl
    · right
      cases hstep : step g t ts.head? mode c with
      | go mode' c' => rw [hstep] at hs; exact hs.elim
      | done e c' => rw [hstep] at hs; exact hs.elim
      | fail f c' => rw [hstep] at hs; exact hs
      | refused f c' => rw [hstep] at hs; exact hs

theorem run_within (h : g.limits.Within l) (ts : List Token) (mode : Mode) (c : Cursor) :
    run g ts mode c = run (g.within l) ts mode c ∨ (run g ts mode c).IsLimit :=
  (run_raised h ts mode c).imp id Step.Raised.isLimit

end Parser

end Reckon
