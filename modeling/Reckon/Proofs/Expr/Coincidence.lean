import Reckon.Proofs.Expr.Locating
/-
  What tables and scopes are read for. A parse asks for the levels of the operators among its
  tokens and for nothing else, so tables that differ elsewhere give tokens the same tree, or the
  same failure and cursor (`Parser.parse_congr`). An evaluation looks up what the nodes of its tree
  name, so scopes that differ elsewhere give a tree the same value after the same calls, or the
  same failure (`Expr.evaluate_congr`).
-/
namespace Reckon

/-! ## Parsing -/

/-- Tables in which an operator has the same levels and groups to the same side. -/
structure Precedence.SameAt (p p' : Precedence) (op : String) : Prop where
  unary : p'.unaryLevel op = p.unaryLevel op
  binary : p'.binaryLevel op = p.binaryLevel op
  right : p'.isRightAssociative op = p.isRightAssociative op

theorem Precedence.SameAt.trans {p p' p'' : Precedence} {op : String} (h : p.SameAt p' op)
    (h' : p'.SameAt p'' op) : p.SameAt p'' op :=
  ⟨h'.unary.trans h.unary, h'.binary.trans h.binary, h'.right.trans h.right⟩

theorem Precedence.SameAt.continues {p p' : Precedence} {op : String} (h : p.SameAt p' op)
    (floor : Level) : p'.continues floor op = p.continues floor op := by
  unfold Precedence.continues
  rw [h.binary, h.right]

namespace Parser

/-- The grammar with other tables. -/
def Grammar.withTables (g : Grammar) (p : Precedence) : Grammar := { g with precedence := p }

/-- A token that is no operator, or one with the same place in other tables. -/
def Grammar.SameFor (g : Grammar) (p : Precedence) (t : Token) : Prop :=
  t.kind = .operator → g.precedence.SameAt p t.text

variable {g : Grammar} {p : Precedence}

theorem unaryLevel_congr {t : Token} (h : g.SameFor p t) :
    unaryLevel? (g.withTables p) t = unaryLevel? g t := by
  unfold unaryLevel?
  by_cases hk : t.kind = .operator
  · rw [if_pos hk, if_pos hk]
    exact (h hk).unary
  · rw [if_neg hk, if_neg hk]

theorem takes_congr {next : Option Token} (h : ∀ t ∈ next, g.SameFor p t) (floor : Level) :
    takes (g.withTables p) floor next = takes g floor next := by
  cases next with
  | none => rfl
  | some t =>
    rw [takes, takes]
    by_cases hk : t.kind = .operator
    · rw [if_pos hk, if_pos hk]
      exact congrArg (Except.map _) ((h t rfl hk).continues floor)
    · rw [if_neg hk, if_neg hk]

theorem startOperand_congr {t : Token} (h : g.SameFor p t) (after : Option Token)
    (stack : List Frame) (c : Cursor) :
    startOperand (g.withTables p) t after stack c = startOperand g t after stack c := by
  unfold startOperand
  rw [unaryLevel_congr h]
  rfl

/-- By recursion on the stack, as frames are completed. -/
theorem settle_congr {next : Option Token} (h : ∀ t ∈ next, g.SameFor p t) (stack : List Frame)
    (e : Expr) (c : Cursor) :
    settle (g.withTables p) next stack e c = settle g next stack e c := by
  induction stack generalizing e c with
  | nil =>
    rw [settle, settle, takes_congr h]
  | cons f below ih =>
    rw [settle, settle, takes_congr h]
    cases takes g (floor (f :: below)) next with
    | error fault => rfl
    | ok taken =>
      cases taken with
      | some taken => rfl
      | none =>
        cases f with
        | right l op level =>
          have hmade := funext fun c => ih (.binary op.text l e op.position) c
          exact congrArg (make g c.leave) hmade
        | unary op level =>
          have hmade := funext fun c => ih (.unary op.text e op.position) c
          exact congrArg (make g c.leave) hmade
        | group => rfl
        | arg name before => rfl

theorem step_congr {t : Token} (h : g.SameFor p t) (after : Option Token) (mode : Mode)
    (c : Cursor) : step (g.withTables p) t after mode c = step g t after mode c := by
  cases mode with
  | want stack => exact startOperand_congr h after stack c
  | called name stack => rfl
  | opened name stack =>
    rw [step, step, startOperand_congr h]
    rfl
  | «have» stack e =>
    refine settle_congr (fun u hu => ?_) stack e c
    rw [← Option.some.inj hu]
    exact h

theorem run_congr {ts : List Token} (h : ∀ t ∈ ts, g.SameFor p t) (mode : Mode) (c : Cursor) :
    run (g.withTables p) ts mode c = run g ts mode c := by
  induction ts generalizing mode c with
  | nil =>
    cases mode with
    | «have» stack e => exact settle_congr (fun _ hu => absurd hu (by simp)) stack e c
    | want | called | opened => rfl
  | cons t ts ih =>
    have hbehind := ih fun u hu => h u (List.mem_cons_of_mem _ hu)
    rw [run, run, step_congr (h t (List.mem_cons_self ..))]
    cases step g t ts.head? mode c with
    | go mode c => exact hbehind mode c
    | done | fail | refused => rfl

/-- Only the operators among the tokens matter. -/
theorem parse_congr {precedence precedence' : Precedence} {ts : List Token}
    (h : ∀ t ∈ ts, t.kind = .operator → precedence.SameAt precedence' t.text) (limits : Limits)
    (source : Option String) :
    parse precedence' limits source ts = parse precedence limits source ts := by
  have hrun := run_congr (g := grammarFor precedence limits source ts) (p := precedence') h
  show checkTrailing _ ts 0 (expression ((grammarFor precedence limits source ts).withTables
    precedence') ts {}) = _
  unfold expression
  rw [hrun]
  rfl

end Parser

/-! ## Evaluation -/

/-- Scopes in which a node finds the same. -/
def Expr.SameIn (s t : Scope) : Expr → Prop
  | constant .. | unknown .. => True
  | var name _ => t.bindings.find? name = s.bindings.find? name
  | unary op _ _ => t.operators.unary.find? op = s.operators.unary.find? op
  | binary op _ _ _ => t.operators.binary.find? op = s.operators.binary.find? op
  | call name _ _ => t.function? name = s.function? name

/-- Desks with the same calls so far, in two scopes. -/
structure Desk.Within (s t : Scope) (d d' : Desk) : Prop where
  left : d.scope = s
  right : d'.scope = t
  calls : d'.calls = d.calls

namespace Evaluation

variable {s t : Scope} {d d' : Desk}

theorem failAt_congr (hsource : t.source = s.source) (h : d.Within s t d') (problem : Problem)
    (position : Int) (cause : Option Fault.Kind) :
    Agree (Desk.Within s t) Eq (failAt Desk.host problem position cause d)
      (failAt Desk.host problem position cause d') := by
  refine ⟨?_, h⟩
  show Failure.error ⟨problem, some position, d.scope.source, cause⟩
    = Failure.error ⟨problem, some position, d'.scope.source, cause⟩
  rw [h.left, h.right, hsource]

theorem call_congr (h : d.Within s t d') (f : Function) (args : List Value) :
    Agree (Desk.Within s t) Eq (Desk.host.call f args d) (Desk.host.call f args d') := by
  have hcalls : d'.calls ++ [⟨f, args⟩] = d.calls ++ [⟨f, args⟩] := by rw [h.calls]
  show Agree _ _ (Desk.call f args d) (Desk.call f args d')
  rw [Desk.call_scope, Desk.call_scope]
  cases f.apply args with
  | ok v => exact ⟨rfl, h.left, h.right, hcalls⟩
  | error e => exact ⟨rfl, h.left, h.right, hcalls⟩

theorem applyOperator_congr (hsource : t.source = s.source) (h : d.Within s t d') (op : String)
    (position : Int) (f : Function) (args : List Value) :
    Agree (Desk.Within s t) Eq (applyOperator Desk.host op position f args d)
      (applyOperator Desk.host op position f args d') := by
  unfold applyOperator
  obtain ⟨v, d₁, d₁', hd, hd', h₁⟩ | ⟨e, _, d₁, d₁', hd, hd', rfl, h₁⟩ :=
    (call_congr h f args).cases
  · rw [hd, hd']
    exact ⟨rfl, h₁⟩
  · rw [hd, hd']
    refine ⟨?_, h₁⟩
    show operatorFailure op position d₁.scope.source e
      = operatorFailure op position d₁'.scope.source e
    rw [h₁.left, h₁.right, hsource]

theorem applyFunction_congr (hsource : t.source = s.source) (h : d.Within s t d') (name : String)
    (position : Int) (f : Function) (args : List Value) :
    Agree (Desk.Within s t) Eq (applyFunction Desk.host name position f args d)
      (applyFunction Desk.host name position f args d') := by
  unfold applyFunction
  obtain ⟨v, d₁, d₁', hd, hd', h₁⟩ | ⟨e, _, d₁, d₁', hd, hd', rfl, h₁⟩ :=
    (call_congr h f args).cases
  · rw [hd, hd']
    exact ⟨rfl, h₁⟩
  · rw [hd, hd']
    refine ⟨?_, h₁⟩
    show callFailure name (some position) d.scope.source e
      = callFailure name (some position) d'.scope.source e
    rw [h.left, h.right, hsource]

mutual
/-- Only what the nodes of a tree look up matters. -/
theorem eval_congr (hsource : t.source = s.source) (e : Expr) (he : ∀ y ∈ e.nodes, y.SameIn s t)
    {d d' : Desk} (h : d.Within s t d') :
    Agree (Desk.Within s t) Eq (eval Desk.host e d) (eval Desk.host e d') := by
  have hself := he e e.self_mem_nodes
  have hs : Desk.host.scope d = s := h.left
  have ht : Desk.host.scope d' = t := h.right
  match e with
  | .constant text position =>
    rw [eval]
    cases Literal.value text with
    | ok v => exact .pure h
    | error f => exact failAt_congr hsource h _ _ _
  | .var name position =>
    have hfind : t.bindings.find? name = s.bindings.find? name := hself
    rw [eval_var, eval_var, hs, ht, hfind]
    cases s.bindings.find? name with
    | some v => exact .pure h
    | none => exact failAt_congr hsource h _ _ _
  | .unary op x position =>
    have hfind : t.operators.unary.find? op = s.operators.unary.find? op := hself
    rw [Expr.nodes] at he
    rw [eval_unary, eval_unary, hs, ht, hfind]
    cases s.operators.unary.find? op with
    | none => exact failAt_congr hsource h _ _ _
    | some f =>
      have hx := fun y hy => he y (List.mem_cons_of_mem _ hy)
      refine (eval_congr hsource x hx h).bind fun v d₁ d₁' h₁ => ?_
      exact applyOperator_congr hsource h₁ op position f [v]
  | .binary op l r position =>
    have hfind : t.operators.binary.find? op = s.operators.binary.find? op := hself
    rw [Expr.nodes] at he
    rw [eval_binary, eval_binary, hs, ht, hfind]
    cases s.operators.binary.find? op with
    | none => exact failAt_congr hsource h _ _ _
    | some f =>
      have hl := fun y hy => he y (List.mem_cons_of_mem _ (List.mem_append_left _ hy))
      have hr := fun y hy => he y (List.mem_cons_of_mem _ (List.mem_append_right _ hy))
      refine (eval_congr hsource l hl h).bind fun a d₁ d₁' h₁ => ?_
      refine (eval_congr hsource r hr h₁).bind fun b d₂ d₂' h₂ => ?_
      exact applyOperator_congr hsource h₂ op position f [a, b]
  | .call name args position =>
    have hfind : t.function? name = s.function? name := hself
    rw [Expr.nodes] at he
    rw [eval_call, eval_call, hs, ht, hfind]
    cases s.function? name with
    | none => exact failAt_congr hsource h _ _ _
    | some f =>
      have hargs := fun y hy => he y (List.mem_cons_of_mem _ hy)
      refine (evalAll_congr hsource args hargs h).bind fun vs d₁ d₁' h₁ => ?_
      exact applyFunction_congr hsource h₁ name position f vs
  | .unknown type position =>
    rw [eval]
    exact failAt_congr hsource h _ _ _

theorem evalAll_congr (hsource : t.source = s.source) (es : List Expr)
    (hes : ∀ y ∈ Expr.nodesAll es, y.SameIn s t) {d d' : Desk} (h : d.Within s t d') :
    Agree (Desk.Within s t) Eq (evalAll Desk.host es d) (evalAll Desk.host es d') := by
  match es with
  | [] =>
    rw [evalAll]
    exact .pure h
  | e :: es =>
    rw [Expr.nodesAll] at hes
    have he := fun y hy => hes y (List.mem_append_left _ hy)
    have hbehind := fun y hy => hes y (List.mem_append_right _ hy)
    rw [evalAll]
    refine (eval_congr hsource e he h).bind fun v d₁ d₁' h₁ => ?_
    refine (evalAll_congr hsource es hbehind h₁).bind fun vs d₂ d₂' h₂ => ?_
    exact .pure h₂
end

end Evaluation

/-- Scopes that differ nowhere a tree looks give it the same value after the same calls, or the same
failure. -/
theorem Expr.evaluate_congr {e : Expr} {s t : Scope} (hsource : t.source = s.source)
    (he : ∀ y ∈ e.nodes, y.SameIn s t) : e.evaluate t = e.evaluate s := by
  have hstart : Desk.Within s t ⟨s, []⟩ ⟨t, []⟩ := ⟨rfl, rfl, rfl⟩
  have hagree := Evaluation.eval_congr hsource e he hstart
  unfold Expr.evaluate
  obtain ⟨v, d, d', hs, ht, h⟩ | ⟨f, _, d, d', hs, ht, rfl, h⟩ := hagree.cases
  · rw [hs, ht]
    show (⟨.ok v, d'.calls⟩ : Traced Value) = ⟨.ok v, d.calls⟩
    rw [h.calls]
  · rw [hs, ht]
    show (⟨.error f, d'.calls⟩ : Traced Value) = ⟨.error f, d.calls⟩
    rw [h.calls]

end Reckon
