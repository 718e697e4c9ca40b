import Reckon.Proofs.Expr.Agreement
/-
  Where an evaluation fails. An evaluation ends with its first failure (`Evaluation.Fails`): a node
  of the tree fails, or a call that the tree makes comes to a failure that is passed on as it is.
  The relation says exactly which evaluations fail, and how (`Evaluation.eval_eq_error_iff`).

  A node that fails gives an error that shows the text of some state on the way, the origin of the
  failure (`Evaluation.Fails.shows`). It is the state in which a name or a literal is looked up in
  vain, the state after the call of an operator, but the state before the call of a function. The
  states differ, since calls may have effects. What a call has come to and is passed on has no
  origin.
-/
namespace Reckon

namespace Evaluation

variable {σ : Type} {h : Host σ}

/-- The error of a node in a state. -/
def nodeError (h : Host σ) (s : σ) (problem : Problem) (position : Int)
    (cause : Option Fault.Kind := none) : Failure :=
  .error { problem, position := some position, expression := (h.scope s).source, cause }

/-- Where the failure of an operator comes from, after the call. A contained fault is a failure of
the node, anything else is passed on. -/
def operatorOrigin (s : σ) : Failure → Option σ
  | .fault f => if f.kind.isContained then some s else none
  | .error _ => none

/-- Where the failure of a function comes from, before the call. So is a rejection that does not
know its place. -/
def callOrigin (s : σ) : Failure → Option σ
  | .fault f => if f.kind.isContained then some s else none
  | .error e =>
    match e.problem, e.position with
    | .rejected .., none => some s
    | _, _ => none

/-- The ways in which the evaluation of a tree fails. The origin of a failure of a node is the state
whose text the error shows; what a call has come to and is passed on has none. -/
inductive Fails (h : Host σ) : Expr → σ → Failure → Option σ → Prop
  | constant {text : String} {position : Int} {s : σ} {f : Fault}
    (hvalue : Literal.value text = .error f) :
    Fails h (.constant text position) s
      (nodeError h s (.invalidLiteral text) position (some f.kind)) (some s)
  | var {name : String} {position : Int} {s : σ}
    (hfind : (h.scope s).bindings.find? name = none) :
    Fails h (.var name position) s (nodeError h s (.undefinedVariable name) position) (some s)
  | unaryUnknown {op : String} {x : Expr} {position : Int} {s : σ}
    (hfind : (h.scope s).operators.unary.find? op = none) :
    Fails h (.unary op x position) s (nodeError h s (.unknownOperator op "unary") position) (some s)
  | unaryOperand {op : String} {x : Expr} {position : Int} {s : σ} {f : Function} {e : Failure}
    {o : Option σ} (hfind : (h.scope s).operators.unary.find? op = some f)
    (hx : Fails h x s e o) : Fails h (.unary op x position) s e o
  | unary {op : String} {x : Expr} {position : Int} {s s₁ s₂ : σ} {f : Function} {v : Value}
    {e : Failure} (hfind : (h.scope s).operators.unary.find? op = some f)
    (hx : eval h x s = .ok v s₁) (hcall : h.call f [v] s₁ = .error e s₂) :
    Fails h (.unary op x position) s (operatorFailure op position (h.scope s₂).source e)
      (operatorOrigin s₂ e)
  | binaryUnknown {op : String} {l r : Expr} {position : Int} {s : σ}
    (hfind : (h.scope s).operators.binary.find? op = none) :
    Fails h (.binary op l r position) s (nodeError h s (.unknownOperator op "binary") position)
      (some s)
  | leftOperand {op : String} {l r : Expr} {position : Int} {s : σ} {f : Function} {e : Failure}
    {o : Option σ} (hfind : (h.scope s).operators.binary.find? op = some f)
    (hl : Fails h l s e o) : Fails h (.binary op l r position) s e o
  | rightOperand {op : String} {l r : Expr} {position : Int} {s s₁ : σ} {f : Function} {a : Value}
    {e : Failure} {o : Option σ} (hfind : (h.scope s).operators.binary.find? op = some f)
    (hl : eval h l s = .ok a s₁) (hr : Fails h r s₁ e o) : Fails h (.binary op l r position) s e o
  | binary {op : String} {l r : Expr} {position : Int} {s s₁ s₂ s₃ : σ} {f : Function}
    {a b : Value} {e : Failure} (hfind : (h.scope s).operators.binary.find? op = some f)
    (hl : eval h l s = .ok a s₁) (hr : eval h r s₁ = .ok b s₂)
    (hcall : h.call f [a, b] s₂ = .error e s₃) :
    Fails h (.binary op l r position) s (operatorFailure op position (h.scope s₃).source e)
      (operatorOrigin s₃ e)
  | callUnknown {name : String} {args : List Expr} {position : Int} {s : σ}
    (hfind : (h.scope s).function? name = none) :
    Fails h (.call name args position) s (nodeError h s (.undefinedFunction name) position) (some s)
  | argument {name : String} {before after : List Expr} {x : Expr} {position : Int} {s s₁ : σ}
    {f : Function} {vs : List Value} {e : Failure} {o : Option σ}
    (hfind : (h.scope s).function? name = some f) (hbefore : evalAll h before s = .ok vs s₁)
    (hx : Fails h x s₁ e o) : Fails h (.call name (before ++ x :: after) position) s e o
  | call {name : String} {args : List Expr} {position : Int} {s s₁ s₂ : σ} {f : Function}
    {vs : List Value} {e : Failure} (hfind : (h.scope s).function? name = some f)
    (hargs : evalAll h args s = .ok vs s₁) (hcall : h.call f vs s₁ = .error e s₂) :
    Fails h (.call name args position) s (callFailure name (some position) (h.scope s₁).source e)
      (callOrigin s₁ e)
  | unknown {type : String} {position : Int} {s : σ} :
    Fails h (.unknown type position) s (nodeError h s (.unknownNode type) position) (some s)

/-! ## What fails -/

theorem applyOperator_of_eq_error {op : String} {position : Int} {f : Function}
    {args : List Value} {s s' : σ} {e : Failure} (hcall : h.call f args s = .error e s') :
    applyOperator h op position f args s
      = .error (operatorFailure op position (h.scope s').source e) s' := by
  unfold applyOperator
  rw [hcall]

theorem applyFunction_of_eq_error {name : String} {position : Int} {f : Function}
    {args : List Value} {s s' : σ} {e : Failure} (hcall : h.call f args s = .error e s') :
    applyFunction h name position f args s
      = .error (callFailure name (some position) (h.scope s).source e) s' := by
  unfold applyFunction
  rw [hcall]

theorem evalAll_of_eq_error {before after : List Expr} {x : Expr} {s s₁ s₂ : σ}
    {vs : List Value} {e : Failure} (hbefore : evalAll h before s = .ok vs s₁)
    (hx : eval h x s₁ = .error e s₂) : evalAll h (before ++ x :: after) s = .error e s₂ := by
  induction before generalizing s vs with
  | nil =>
    rw [evalAll] at hbefore
    obtain ⟨-, rfl⟩ := EStateM.Result.ok.inj hbefore
    rw [List.nil_append, evalAll]
    exact bind_of_eq_error hx
  | cons y ys ih =>
    rw [evalAll] at hbefore
    obtain ⟨v, s', hy, hrest⟩ := exists_of_run_eq_ok hbefore
    obtain ⟨vs', s'', hys, hpure⟩ := exists_of_run_eq_ok hrest
    obtain ⟨-, rfl⟩ := EStateM.Result.ok.inj hpure
    rw [List.cons_append, evalAll]
    exact (bind_of_eq_ok hy).trans (bind_of_eq_error (ih hys))

/-- What fails in one of the ways is a failure. -/
theorem Fails.eval_eq {x : Expr} {s : σ} {e : Failure} {o : Option σ} (hf : Fails h x s e o) :
    ∃ s', eval h x s = .error e s' := by
  induction hf with
  | constant hvalue =>
    rw [eval, hvalue]
    exact ⟨_, rfl⟩
  | var hfind =>
    rw [eval_var, hfind]
    exact ⟨_, rfl⟩
  | unaryUnknown hfind =>
    rw [eval_unary, hfind]
    exact ⟨_, rfl⟩
  | unaryOperand hfind _ ih =>
    obtain ⟨s', hx⟩ := ih
    rw [eval_unary, hfind]
    exact ⟨s', bind_of_eq_error hx⟩
  | unary hfind hx hcall =>
    rw [eval_unary, hfind]
    exact ⟨_, (bind_of_eq_ok hx).trans (applyOperator_of_eq_error hcall)⟩
  | binaryUnknown hfind =>
    rw [eval_binary, hfind]
    exact ⟨_, rfl⟩
  | leftOperand hfind _ ih =>
    obtain ⟨s', hl⟩ := ih
    rw [eval_binary, hfind]
    exact ⟨s', bind_of_eq_error hl⟩
  | rightOperand hfind hl _ ih =>
    obtain ⟨s', hr⟩ := ih
    rw [eval_binary, hfind]
    exact ⟨s', (bind_of_eq_ok hl).trans (bind_of_eq_error hr)⟩
  | binary hfind hl hr hcall =>
    rw [eval_binary, hfind, Option.elim_some, bind_of_eq_ok hl, bind_of_eq_ok hr]
    exact ⟨_, applyOperator_of_eq_error hcall⟩
  | callUnknown hfind =>
    rw [eval_call, hfind]
    exact ⟨_, rfl⟩
  | argument hfind hbefore _ ih =>
    obtain ⟨s', hx⟩ := ih
    rw [eval_call, hfind]
    exact ⟨s', bind_of_eq_error (evalAll_of_eq_error hbefore hx)⟩
  | call hfind hargs hcall =>
    rw [eval_call, hfind]
    exact ⟨_, (bind_of_eq_ok hargs).trans (applyFunction_of_eq_error hcall)⟩
  | unknown =>
    rw [eval]
    exact ⟨_, rfl⟩

theorem call_of_applyOperator_eq_error {op : String} {position : Int} {f : Function}
    {args : List Value} {s s' : σ} {e : Failure}
    (hrun : applyOperator h op position f args s = .error e s') :
    ∃ e', h.call f args s = .error e' s'
      ∧ e = operatorFailure op position (h.scope s').source e' := by
  cases hcall : h.call f args s with
  | ok v s₁ =>
    unfold applyOperator at hrun
    rw [hcall] at hrun
    exact absurd hrun (by simp)
  | error e' s₁ =>
    rw [applyOperator_of_eq_error hcall] at hrun
    obtain ⟨rfl, rfl⟩ := EStateM.Result.error.inj hrun
    exact ⟨e', rfl, rfl⟩

theorem call_of_applyFunction_eq_error {name : String} {position : Int} {f : Function}
    {args : List Value} {s s' : σ} {e : Failure}
    (hrun : applyFunction h name position f args s = .error e s') :
    ∃ e', h.call f args s = .error e' s'
      ∧ e = callFailure name (some position) (h.scope s).source e' := by
  cases hcall : h.call f args s with
  | ok v s₁ =>
    unfold applyFunction at hrun
    rw [hcall] at hrun
    exact absurd hrun (by simp)
  | error e' s₁ =>
    rw [applyFunction_of_eq_error hcall] at hrun
    obtain ⟨rfl, rfl⟩ := EStateM.Result.error.inj hrun
    exact ⟨e', rfl, rfl⟩

theorem eq_of_failAt {problem : Problem} {position : Int} {cause : Option Fault.Kind} {s s' : σ}
    {e : Failure} (hrun : failAt h problem position cause s = .error e s') :
    e = nodeError h s problem position cause := (EStateM.Result.error.inj hrun).1.symm

mutual
/-- A failure comes about in one of the ways. -/
theorem exists_fails (x : Expr) {s s' : σ} {e : Failure} (hrun : eval h x s = .error e s') :
    ∃ o, Fails h x s e o := by
  match x with
  | .constant text position =>
    rw [eval] at hrun
    cases hvalue : Literal.value text with
    | ok v =>
      rw [hvalue] at hrun
      exact absurd hrun (by simp [pure, EStateM.pure])
    | error f =>
      rw [hvalue] at hrun
      rw [eq_of_failAt hrun]
      exact ⟨_, .constant hvalue⟩
  | .var name position =>
    rw [eval_var] at hrun
    cases hfind : (h.scope s).bindings.find? name with
    | some v =>
      rw [hfind] at hrun
      exact absurd hrun (by simp [pure, EStateM.pure])
    | none =>
      rw [hfind] at hrun
      rw [eq_of_failAt hrun]
      exact ⟨_, .var hfind⟩
  | .unary op y position =>
    rw [eval_unary] at hrun
    cases hfind : (h.scope s).operators.unary.find? op with
    | none =>
      rw [hfind] at hrun
      rw [eq_of_failAt hrun]
      exact ⟨_, .unaryUnknown hfind⟩
    | some f =>
      rw [hfind] at hrun
      obtain hy | ⟨v, s₁, hy, happly⟩ := exists_of_run_eq_error hrun
      · obtain ⟨o, hfails⟩ := exists_fails y hy
        exact ⟨o, .unaryOperand hfind hfails⟩
      · obtain ⟨e', hcall, rfl⟩ := call_of_applyOperator_eq_error happly
        exact ⟨_, .unary hfind hy hcall⟩
  | .binary op l r position =>
    rw [eval_binary] at hrun
    cases hfind : (h.scope s).operators.binary.find? op with
    | none =>
      rw [hfind] at hrun
      rw [eq_of_failAt hrun]
      exact ⟨_, .binaryUnknown hfind⟩
    | some f =>
      rw [hfind] at hrun
      obtain hl | ⟨a, s₁, hl, hrest⟩ := exists_of_run_eq_error hrun
      · obtain ⟨o, hfails⟩ := exists_fails l hl
        exact ⟨o, .leftOperand hfind hfails⟩
      obtain hr | ⟨b, s₂, hr, happly⟩ := exists_of_run_eq_error hrest
      · obtain ⟨o, hfails⟩ := exists_fails r hr
        exact ⟨o, .rightOperand hfind hl hfails⟩
      · obtain ⟨e', hcall, rfl⟩ := call_of_applyOperator_eq_error happly
        exact ⟨_, .binary hfind hl hr hcall⟩
  | .call name args position =>
    rw [eval_call] at hrun
    cases hfind : (h.scope s).function? name with
    | none =>
      rw [hfind] at hrun
      rw [eq_of_failAt hrun]
      exact ⟨_, .callUnknown hfind⟩
    | some f =>
      rw [hfind] at hrun
      obtain hargs | ⟨vs, s₁, hargs, happly⟩ := exists_of_run_eq_error hrun
      · obtain ⟨before, y, after, vs, s₁, o, rfl, hbefore, hfails⟩ := exists_failsAll args hargs
        exact ⟨o, .argument hfind hbefore hfails⟩
      · obtain ⟨e', hcall, rfl⟩ := call_of_applyFunction_eq_error happly
        exact ⟨_, .call hfind hargs hcall⟩
  | .unknown type position =>
    rw [eval] at hrun
    rw [eq_of_failAt hrun]
    exact ⟨_, .unknown⟩

/-- Of trees that are evaluated in order, one fails after those before it have values. -/
theorem exists_failsAll (xs : List Expr) {s s' : σ} {e : Failure}
    (hrun : evalAll h xs s = .error e s') :
    ∃ before y after vs s₁ o, xs = before ++ y :: after ∧ evalAll h before s = .ok vs s₁
      ∧ Fails h y s₁ e o := by
  match xs with
  | [] =>
    rw [evalAll] at hrun
    exact absurd hrun (by simp [pure, EStateM.pure])
  | x :: xs =>
    rw [evalAll] at hrun
    obtain hx | ⟨v, s₁, hx, hrest⟩ := exists_of_run_eq_error hrun
    · obtain ⟨o, hfails⟩ := exists_fails x hx
      exact ⟨[], x, xs, [], s, o, rfl, by rw [evalAll]; rfl, hfails⟩
    obtain hxs | ⟨vs, s₂, hxs, hpure⟩ := exists_of_run_eq_error hrest
    · obtain ⟨before, y, after, vs, s₂, o, rfl, hbefore, hfails⟩ := exists_failsAll xs hxs
      refine ⟨x :: before, y, after, v :: vs, s₂, o, rfl, ?_, hfails⟩
      rw [evalAll]
      exact (bind_of_eq_ok hx).trans (bind_of_eq_ok hbefore)
    · exact absurd hpure (by simp [pure, EStateM.pure])
end

/-- Exactly these evaluations fail. -/
theorem eval_eq_error_iff {x : Expr} {s : σ} {e : Failure} :
    (∃ s', eval h x s = .error e s') ↔ ∃ o, Fails h x s e o := by
  constructor
  · rintro ⟨s', hrun⟩
    exact exists_fails x hrun
  · rintro ⟨o, hf⟩
    exact hf.eval_eq

/-! ## What is shown -/

theorem eq_of_operatorOrigin {s q : σ} {e : Failure} (hq : operatorOrigin s e = some q) :
    q = s := by
  unfold operatorOrigin at hq
  split at hq
  · split at hq
    · exact (Option.some.inj hq).symm
    · exact absurd hq (by simp)
  · exact absurd hq (by simp)

theorem eq_of_callOrigin {s q : σ} {e : Failure} (hq : callOrigin s e = some q) : q = s := by
  unfold callOrigin at hq
  split at hq
  · split at hq
    · exact (Option.some.inj hq).symm
    · exact absurd hq (by simp)
  · split at hq
    · exact (Option.some.inj hq).symm
    · exact absurd hq (by simp)

/-- A failure of an operator that comes from its node shows the text that is there. -/
theorem operatorFailure_shows {op : String} {position : Int} {source : Option String} {s q : σ}
    {e : Failure} (hq : operatorOrigin s e = some q) :
    ∃ err : Error,
      operatorFailure op position source e = .error err ∧ err.expression = source := by
  cases e with
  | error e => exact absurd hq (by simp [operatorOrigin])
  | fault f =>
    by_cases hc : f.kind.isContained = true
    · exact ⟨_, if_pos hc, rfl⟩
    · exact absurd ((if_neg hc).symm.trans hq) (by simp)

theorem callFailure_shows {name : String} {position : Option Int} {source : Option String}
    {s q : σ} {e : Failure} (hq : callOrigin s e = some q) :
    ∃ err : Error, callFailure name position source e = .error err ∧ err.expression = source := by
  cases e with
  | error e =>
    obtain ⟨problem, place, expression, cause⟩ := e
    cases problem with
    | rejected function reason =>
      cases place with
      | none => exact ⟨_, rfl, rfl⟩
      | some _ => exact absurd hq (by simp [callOrigin])
    | _ => exact absurd hq (by simp [callOrigin])
  | fault f =>
    by_cases hc : f.kind.isContained = true
    · exact ⟨_, if_pos hc, rfl⟩
    · exact absurd ((if_neg hc).symm.trans hq) (by simp)

/-- What fails at a node is an error that shows the text of its origin. -/
theorem Fails.shows {x : Expr} {s q : σ} {e : Failure} (hf : Fails h x s e (some q)) :
    ∃ err : Error, e = .error err ∧ err.expression = (h.scope q).source := by
  obtain ⟨o, ho⟩ : ∃ o, o = some q := ⟨_, rfl⟩
  rw [← ho] at hf
  induction hf with
  | constant | var | unaryUnknown | binaryUnknown | callUnknown | unknown =>
    obtain rfl := Option.some.inj ho
    exact ⟨_, rfl, rfl⟩
  | unaryOperand _ _ ih | leftOperand _ _ ih | rightOperand _ _ _ ih | argument _ _ _ ih =>
    exact ih ho
  | unary | binary =>
    rw [eq_of_operatorOrigin ho]
    exact operatorFailure_shows ho
  | call =>
    rw [eq_of_callOrigin ho]
    exact callFailure_shows ho

/-- What every call keeps is true of the origin of a failure. -/
theorem Fails.keeps {P : σ → Prop} (hkeeps : ∀ f args s, P s → P (left (h.call f args s)))
    {x : Expr} {s q : σ} {e : Failure} (hf : Fails h x s e (some q)) (hs : P s) : P q := by
  obtain ⟨o, ho⟩ : ∃ o, o = some q := ⟨_, rfl⟩
  rw [← ho] at hf
  induction hf with
  | constant | var | unaryUnknown | binaryUnknown | callUnknown | unknown =>
    obtain rfl := Option.some.inj ho
    exact hs
  | unaryOperand _ _ ih | leftOperand _ _ ih => exact ih hs ho
  | rightOperand _ hl _ ih => exact ih (of_eq_ok (eval_keeps hkeeps _ hs) hl) ho
  | argument _ hbefore _ ih => exact ih (of_eq_ok (evalAll_keeps hkeeps _ hs) hbefore) ho
  | unary _ hx hcall =>
    have hs₁ := of_eq_ok (eval_keeps hkeeps _ hs) hx
    rw [eq_of_operatorOrigin ho]
    exact of_eq_error (hkeeps _ _ _ hs₁) hcall
  | binary _ hl hr hcall =>
    have hs₁ := of_eq_ok (eval_keeps hkeeps _ hs) hl
    have hs₂ := of_eq_ok (eval_keeps hkeeps _ hs₁) hr
    rw [eq_of_operatorOrigin ho]
    exact of_eq_error (hkeeps _ _ _ hs₂) hcall
  | call _ hargs _ =>
    rw [eq_of_callOrigin ho]
    exact of_eq_ok (evalAll_keeps hkeeps _ hs) hargs

end Evaluation

end Reckon
