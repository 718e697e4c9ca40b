import Reckon.Expr.Evaluation
import Reckon.Proofs.Outcome
/-
  Evaluations that agree. Two hosts with the same tables, whose calls answer alike, give a tree the
  same value (`Evaluation.eval_agree`); moving the nodes of the tree changes nothing but the places
  that errors report. So the value of a tree is a matter of its tables alone: it is the same on any
  host whose calls change no tables, and for all trees that differ in positions only
  (`Expr.evaluate_result_of_bare`).
-/
namespace Reckon

/-! ## Positions -/

mutual
/-- The tree with every position replaced. -/
def Expr.relocate (g : Int → Int) : Expr → Expr
  | .constant text position => .constant text (g position)
  | .var name position => .var name (g position)
  | .unary op e position => .unary op (e.relocate g) (g position)
  | .binary op l r position => .binary op (l.relocate g) (r.relocate g) (g position)
  | .call name args position => .call name (relocateAll g args) (g position)
  | .unknown type position => .unknown type (g position)

def Expr.relocateAll (g : Int → Int) : List Expr → List Expr
  | [] => []
  | e :: es => e.relocate g :: relocateAll g es
end

mutual
theorem Expr.relocate_id (e : Expr) : e.relocate id = e := by
  match e with
  | .constant _ _ => rfl
  | .var _ _ => rfl
  | .unary op e p => rw [Expr.relocate, Expr.relocate_id e]; rfl
  | .binary op l r p => rw [Expr.relocate, Expr.relocate_id l, Expr.relocate_id r]; rfl
  | .call n args p => rw [Expr.relocate, Expr.relocateAll_id args]; rfl
  | .unknown _ _ => rfl

theorem Expr.relocateAll_id (es : List Expr) : Expr.relocateAll id es = es := by
  match es with
  | [] => rfl
  | e :: es => rw [Expr.relocateAll, Expr.relocate_id e, Expr.relocateAll_id es]
end

mutual
/-- Positions are forgotten by putting every node at the same place. -/
theorem Expr.relocate_zero (e : Expr) : e.relocate (fun _ => 0) = e.bare := by
  match e with
  | .constant _ _ => rfl
  | .var _ _ => rfl
  | .unary op e p => rw [Expr.relocate, Expr.relocate_zero e]; rfl
  | .binary op l r p => rw [Expr.relocate, Expr.relocate_zero l, Expr.relocate_zero r]; rfl
  | .call n args p => rw [Expr.relocate, Expr.relocateAll_zero args]; rfl
  | .unknown _ _ => rfl

theorem Expr.relocateAll_zero (es : List Expr) :
    Expr.relocateAll (fun _ => 0) es = Expr.bareAll es := by
  match es with
  | [] => rfl
  | e :: es => rw [Expr.relocateAll, Expr.relocate_zero e, Expr.relocateAll_zero es]; rfl
end

namespace Expr.Same

/-! A tree that is the same but for positions is built alike. -/

variable {e' : Expr} {name op : String} {l r : Expr} {args : List Expr} {position : Int}

theorem var (h : e'.Same (.var name position)) : ∃ position', e' = .var name position' := by
  cases e' with
  | var name' position' =>
    obtain ⟨rfl, -⟩ := Expr.var.inj h
    exact ⟨position', rfl⟩
  | constant | unary | binary | call | unknown => exact absurd h (by simp [Same, bare])

theorem constant {text : String} (h : e'.Same (.constant text position)) :
    ∃ position', e' = .constant text position' := by
  cases e' with
  | constant text' position' =>
    obtain ⟨rfl, -⟩ := Expr.constant.inj h
    exact ⟨position', rfl⟩
  | var | unary | binary | call | unknown => exact absurd h (by simp [Same, bare])

theorem unary (h : e'.Same (.unary op l position)) :
    ∃ l' position', e' = .unary op l' position' ∧ l'.Same l := by
  cases e' with
  | unary op' l' position' =>
    obtain ⟨rfl, hl, -⟩ := Expr.unary.inj h
    exact ⟨l', position', rfl, hl⟩
  | constant | var | binary | call | unknown => exact absurd h (by simp [Same, bare])

theorem binary (h : e'.Same (.binary op l r position)) :
    ∃ l' r' position', e' = .binary op l' r' position' ∧ l'.Same l ∧ r'.Same r := by
  cases e' with
  | binary op' l' r' position' =>
    obtain ⟨rfl, hl, hr, -⟩ := Expr.binary.inj h
    exact ⟨l', r', position', rfl, hl, hr⟩
  | constant | var | unary | call | unknown => exact absurd h (by simp [Same, bare])

theorem call (h : e'.Same (.call name args position)) :
    ∃ args' position', e' = .call name args' position' ∧ bareAll args' = bareAll args := by
  cases e' with
  | call name' args' position' =>
    obtain ⟨rfl, hargs, -⟩ := Expr.call.inj h
    exact ⟨args', position', rfl, hargs⟩
  | constant | var | unary | binary | unknown => exact absurd h (by simp [Same, bare])

theorem of_bareAll_nil {es' : List Expr} (h : bareAll es' = bareAll []) : es' = [] := by
  cases es' with
  | nil => rfl
  | cons _ _ => exact absurd h (by simp [bareAll])

theorem of_bareAll_cons {e : Expr} {es es' : List Expr} (h : bareAll es' = bareAll (e :: es)) :
    ∃ e' es'', es' = e' :: es'' ∧ e'.Same e ∧ bareAll es'' = bareAll es := by
  cases es' with
  | nil => exact absurd h (by simp [bareAll])
  | cons e' es'' =>
    obtain ⟨he, hes⟩ := List.cons.inj h
    exact ⟨e', es'', rfl, he, hes⟩

end Expr.Same

/-! ## Scopes -/

/-- A function that an evaluation in a scope may call. -/
def Scope.Has (s : Scope) (f : Function) : Prop :=
  (∃ op, s.operators.unary.find? op = some f) ∨ (∃ op, s.operators.binary.find? op = some f)
    ∨ ∃ name, s.function? name = some f

/-- Scopes that differ at most in the text that errors show. -/
structure Scope.Matches (s t : Scope) : Prop where
  bindings : s.bindings = t.bindings
  operators : s.operators = t.operators
  functions : s.functions = t.functions

theorem Scope.Matches.function? {s t : Scope} (h : s.Matches t) (name : String) :
    s.function? name = t.function? name := by
  unfold Scope.function?
  rw [h.functions]

namespace Evaluation

variable {σ τ : Type} {Q : σ → τ → Prop} {F : Failure → Failure → Prop} {s : σ} {t : τ}

/-! ## Hosts -/

/-- Two hosts in related states have the same tables, and their calls agree. Failures at a node are
alike when the node is moved by `g`. -/
structure Alike (h : Host σ) (h' : Host τ) (g : Int → Int) (Q : σ → τ → Prop)
    (F : Failure → Failure → Prop) : Prop where
  scope : ∀ {s t}, Q s t → (h.scope s).Matches (h'.scope t)
  call : ∀ {s t s₁ t₁ f} (args : List Value), Q s t → (h.scope s).Has f → Q s₁ t₁ →
    Agree Q Eq (h.call f args s₁) (h'.call f args t₁)
  node : ∀ {s t} (problem : Problem) (position : Int) (cause : Option Fault.Kind), Q s t →
    F (.error { problem, position := some position, expression := (h.scope s).source, cause })
      (.error { problem, position := some (g position), expression := (h'.scope t).source, cause })
  operator : ∀ {s t} (op : String) (position : Int) (e : Failure), Q s t →
    F (operatorFailure op position (h.scope s).source e)
      (operatorFailure op (g position) (h'.scope t).source e)
  function : ∀ {s t} (name : String) (position : Int) (e : Failure), Q s t →
    F (callFailure name (some position) (h.scope s).source e)
      (callFailure name (some (g position)) (h'.scope t).source e)

variable {h : Host σ} {h' : Host τ} {g : Int → Int}

theorem Alike.failAt (H : Alike h h' g Q F) (problem : Problem) (position : Int)
    (cause : Option Fault.Kind) (hQ : Q s t) :
    Agree Q F (failAt h problem position cause s)
      (Evaluation.failAt h' problem (g position) cause t) :=
  ⟨H.node problem position cause hQ, hQ⟩

theorem Alike.applyOperator (H : Alike h h' g Q F) {s₀ : σ} {t₀ : τ} {f : Function} (op : String)
    (position : Int) (args : List Value) (h₀ : Q s₀ t₀) (hf : (h.scope s₀).Has f) (hQ : Q s t) :
    Agree Q F (applyOperator h op position f args s)
      (Evaluation.applyOperator h' op (g position) f args t) := by
  unfold Evaluation.applyOperator
  obtain ⟨v, s₁, t₁, hs, ht, hQ₁⟩ | ⟨e, _, s₁, t₁, hs, ht, rfl, hQ₁⟩ :=
    (H.call args h₀ hf hQ).cases
  · rw [hs, ht]
    exact ⟨rfl, hQ₁⟩
  · rw [hs, ht]
    exact ⟨H.operator op position e hQ₁, hQ₁⟩

theorem Alike.applyFunction (H : Alike h h' g Q F) {s₀ : σ} {t₀ : τ} {f : Function} (name : String)
    (position : Int) (args : List Value) (h₀ : Q s₀ t₀) (hf : (h.scope s₀).Has f) (hQ : Q s t) :
    Agree Q F (applyFunction h name position f args s)
      (Evaluation.applyFunction h' name (g position) f args t) := by
  unfold Evaluation.applyFunction
  obtain ⟨v, s₁, t₁, hs, ht, hQ₁⟩ | ⟨e, _, s₁, t₁, hs, ht, rfl, hQ₁⟩ :=
    (H.call args h₀ hf hQ).cases
  · rw [hs, ht]
    exact ⟨rfl, hQ₁⟩
  · rw [hs, ht]
    exact ⟨H.function name position e hQ, hQ₁⟩

/-! An evaluation looks a name or an operator up before anything else. -/

theorem eval_var (h : Host σ) (name : String) (position : Int) (s : σ) :
    eval h (.var name position) s = ((h.scope s).bindings.find? name).elim
      (Evaluation.failAt h (.undefinedVariable name) position) pure s := by
  have hget : (get : EStateM Failure σ σ) s = .ok s s := rfl
  rw [eval, bind_of_eq_ok hget]
  cases (h.scope s).bindings.find? name with
  | none => rfl
  | some v => rfl

theorem eval_unary (h : Host σ) (op : String) (e : Expr) (position : Int) (s : σ) :
    eval h (.unary op e position) s = ((h.scope s).operators.unary.find? op).elim
      (Evaluation.failAt h (.unknownOperator op "unary") position)
      (fun f => do
        let v ← eval h e
        applyOperator h op position f [v]) s := by
  have hget : (get : EStateM Failure σ σ) s = .ok s s := rfl
  rw [eval, bind_of_eq_ok hget]
  cases (h.scope s).operators.unary.find? op with
  | none => rfl
  | some f => rfl

theorem eval_binary (h : Host σ) (op : String) (l r : Expr) (position : Int) (s : σ) :
    eval h (.binary op l r position) s = ((h.scope s).operators.binary.find? op).elim
      (Evaluation.failAt h (.unknownOperator op "binary") position)
      (fun f => do
        let a ← eval h l
        let b ← eval h r
        applyOperator h op position f [a, b]) s := by
  have hget : (get : EStateM Failure σ σ) s = .ok s s := rfl
  rw [eval, bind_of_eq_ok hget]
  cases (h.scope s).operators.binary.find? op with
  | none => rfl
  | some f => rfl

theorem eval_call (h : Host σ) (name : String) (args : List Expr) (position : Int) (s : σ) :
    eval h (.call name args position) s = ((h.scope s).function? name).elim
      (Evaluation.failAt h (.undefinedFunction name) position)
      (fun f => do
        let vs ← evalAll h args
        applyFunction h name position f vs) s := by
  have hget : (get : EStateM Failure σ σ) s = .ok s s := rfl
  rw [eval, bind_of_eq_ok hget]
  cases (h.scope s).function? name with
  | none => rfl
  | some f => rfl

mutual
/-- Alike hosts give a tree the same value, wherever its nodes are. -/
theorem eval_agree (H : Alike h h' g Q F) (e : Expr) {s : σ} {t : τ} (hQ : Q s t) :
    Agree Q F (eval h e s) (eval h' (e.relocate g) t) := by
  have hscope := H.scope hQ
  match e with
  | .constant text position =>
    rw [Expr.relocate, eval, eval]
    cases Literal.value text with
    | ok v => exact .pure hQ
    | error f => exact H.failAt _ _ _ hQ
  | .var name position =>
    rw [Expr.relocate, eval_var, eval_var, ← hscope.bindings]
    cases (h.scope s).bindings.find? name with
    | some v => exact .pure hQ
    | none => exact H.failAt _ _ _ hQ
  | .unary op e position =>
    rw [Expr.relocate, eval_unary, eval_unary, ← hscope.operators]
    cases hf : (h.scope s).operators.unary.find? op with
    | none => exact H.failAt _ _ _ hQ
    | some f =>
      refine (eval_agree H e hQ).bind fun v s₁ t₁ hQ₁ => ?_
      exact H.applyOperator op position [v] hQ (Or.inl ⟨op, hf⟩) hQ₁
  | .binary op l r position =>
    rw [Expr.relocate, eval_binary, eval_binary, ← hscope.operators]
    cases hf : (h.scope s).operators.binary.find? op with
    | none => exact H.failAt _ _ _ hQ
    | some f =>
      refine (eval_agree H l hQ).bind fun a s₁ t₁ hQ₁ => ?_
      refine (eval_agree H r hQ₁).bind fun b s₂ t₂ hQ₂ => ?_
      exact H.applyOperator op position [a, b] hQ (Or.inr (Or.inl ⟨op, hf⟩)) hQ₂
  | .call name args position =>
    rw [Expr.relocate, eval_call, eval_call, ← hscope.function? name]
    cases hf : (h.scope s).function? name with
    | none => exact H.failAt _ _ _ hQ
    | some f =>
      refine (evalAll_agree H args hQ).bind fun vs s₁ t₁ hQ₁ => ?_
      exact H.applyFunction name position vs hQ (Or.inr (Or.inr ⟨name, hf⟩)) hQ₁
  | .unknown type position =>
    rw [Expr.relocate, eval, eval]
    exact H.failAt _ _ _ hQ

theorem evalAll_agree (H : Alike h h' g Q F) (es : List Expr) {s : σ} {t : τ} (hQ : Q s t) :
    Agree Q F (evalAll h es s) (evalAll h' (Expr.relocateAll g es) t) := by
  match es with
  | [] =>
    rw [Expr.relocateAll, evalAll, evalAll]
    exact .pure hQ
  | e :: es =>
    rw [Expr.relocateAll, evalAll, evalAll]
    refine (eval_agree H e hQ).bind fun v s₁ t₁ hQ₁ => ?_
    refine (evalAll_agree H es hQ₁).bind fun vs s₂ t₂ hQ₂ => ?_
    exact .pure hQ₂
end

/-! ## One host -/

section

variable {P : σ → Prop}

theorem agree_self {ε α : Type} {r : EStateM.Result ε σ α} (hr : P (left r)) :
    Agree (fun s t => s = t ∧ P s) Eq r r := by
  cases r with
  | ok a s => exact ⟨rfl, rfl, hr⟩
  | error e s => exact ⟨rfl, rfl, hr⟩

/-- A host is like itself, while calls of the functions in scope keep a property of the state. -/
theorem alike_self (hcall : ∀ {s₀ f} args s, P s₀ → (h.scope s₀).Has f → P s →
    P (left (h.call f args s))) : Alike h h id (fun s t => s = t ∧ P s) fun _ _ => True where
  scope := by
    rintro s t ⟨rfl, -⟩
    exact ⟨rfl, rfl, rfl⟩
  call := by
    rintro s₀ _ s₁ t₁ f args ⟨rfl, hs₀⟩ hf ⟨rfl, hs₁⟩
    exact agree_self (hcall args s₁ hs₀ hf hs₁)
  node _ _ _ _ := trivial
  operator _ _ _ _ := trivial
  function _ _ _ _ := trivial

/-- What calls of the functions in scope keep, an evaluation keeps. -/
theorem eval_keeps_of_has (hcall : ∀ {s₀ f} args s, P s₀ → (h.scope s₀).Has f → P s →
    P (left (h.call f args s))) (e : Expr) {s : σ} (hs : P s) : P (left (eval h e s)) :=
  (eval_agree (alike_self hcall) e (s := s) (t := s) ⟨rfl, hs⟩).left.2

/-- What every call keeps, an evaluation keeps. -/
theorem eval_keeps (hcall : ∀ f args s, P s → P (left (h.call f args s))) (e : Expr) {s : σ}
    (hs : P s) : P (left (eval h e s)) :=
  eval_keeps_of_has (fun args s _ _ => hcall _ args s) e hs

theorem evalAll_keeps (hcall : ∀ f args s, P s → P (left (h.call f args s))) (es : List Expr)
    {s : σ} (hs : P s) : P (left (evalAll h es s)) :=
  (evalAll_agree (alike_self fun args s _ _ => hcall _ args s) es (s := s) (t := s) ⟨rfl, hs⟩).left.2

end

end Evaluation

/-! ## Trees that differ in positions -/

/-- A failure without the place that it reports. -/
def Failure.bare : Failure → Failure
  | .error e => .error { e with position := none, expression := none }
  | .fault f => .fault f

theorem Evaluation.bare_operatorFailure (op : String) (position position' : Int)
    (source source' : Option String) (e : Failure) :
    (operatorFailure op position source e).bare
      = (operatorFailure op position' source' e).bare := by
  unfold operatorFailure
  cases e with
  | error e => rfl
  | fault f =>
    by_cases hc : f.kind.isContained = true
    · simp only [hc, if_true]
      rfl
    · simp only [hc, Bool.false_eq_true, if_false]

theorem Evaluation.bare_callFailure (name : String) (position position' : Option Int)
    (source source' : Option String) (e : Failure) :
    (callFailure name position source e).bare = (callFailure name position' source' e).bare := by
  unfold callFailure
  cases e with
  | error e =>
    simp only
    split
    · rfl
    · rfl
  | fault f =>
    by_cases hc : f.kind.isContained = true
    · simp only [hc, if_true]
      rfl
    · simp only [hc, Bool.false_eq_true, if_false]

/-- Desks with the same tables and the same calls so far. -/
def Desk.Beside (d d' : Desk) : Prop := d.scope.Matches d'.scope ∧ d.calls = d'.calls

theorem Desk.call_scope (f : Function) (args : List Value) (d : Desk) :
    Desk.call f args d = match f.apply args with
      | .ok v => .ok v { d with calls := d.calls ++ [⟨f, args⟩] }
      | .error e => .error e { d with calls := d.calls ++ [⟨f, args⟩] } := rfl

theorem Desk.alike : Evaluation.Alike Desk.host Desk.host (fun _ => 0) Desk.Beside
    fun e f => e.bare = f.bare where
  scope h := h.1
  call := by
    intro s t s₁ t₁ f args _ _ h₁
    have hcalls : s₁.calls ++ [⟨f, args⟩] = t₁.calls ++ [⟨f, args⟩] := by rw [h₁.2]
    show Agree Desk.Beside Eq (Desk.call f args s₁) (Desk.call f args t₁)
    rw [Desk.call_scope, Desk.call_scope]
    cases f.apply args with
    | ok v => exact ⟨rfl, h₁.1, hcalls⟩
    | error e => exact ⟨rfl, h₁.1, hcalls⟩
  node _ _ _ _ := rfl
  operator _ _ _ _ := Evaluation.bare_operatorFailure ..
  function _ _ _ _ := Evaluation.bare_callFailure ..

/-- An evaluation without the places that a failure reports. -/
def Traced.bare {α : Type} (t : Traced α) : Traced α := ⟨t.result.mapError Failure.bare, t.calls⟩

/-- What a tree evaluates to does not depend on where its nodes are, nor on the text that errors
show: it is the same value after the same calls, or the same failure at another place. -/
theorem Expr.evaluate_bare (e : Expr) {s t : Scope} (h : s.Matches t) :
    (e.evaluate s).bare = (e.bare.evaluate t).bare := by
  have hagree := Evaluation.eval_agree Desk.alike e (s := ⟨s, []⟩) (t := ⟨t, []⟩) ⟨h, rfl⟩
  rw [Expr.relocate_zero] at hagree
  unfold Expr.evaluate
  obtain ⟨v, d, d', hs, ht, -, hcalls⟩ | ⟨f, f', d, d', hs, ht, hbare, -, hcalls⟩ := hagree.cases
  · rw [hs, ht]
    simp only [Traced.of, Traced.bare, hcalls]
  · rw [hs, ht]
    show (⟨.error f.bare, d.calls⟩ : Traced Value) = ⟨.error f'.bare, d'.calls⟩
    rw [hbare, hcalls]

/-- Trees that differ in positions only evaluate to the same, but for the place of a failure. -/
theorem Expr.evaluate_of_same {e e' : Expr} (he : e.Same e') {s t : Scope} (h : s.Matches t) :
    (e.evaluate s).bare = (e'.evaluate t).bare := by
  have hself : t.Matches t := ⟨rfl, rfl, rfl⟩
  rw [e.evaluate_bare h, e'.evaluate_bare hself, he]

theorem Traced.calls_of_bare {α : Type} {t u : Traced α} (h : t.bare = u.bare) :
    t.calls = u.calls := (Traced.mk.inj h).2

theorem Traced.result_of_bare {α : Type} {t u : Traced α} (h : t.bare = u.bare) {a : α}
    (ht : t.result = .ok a) : u.result = .ok a := by
  obtain ⟨b, ht', hu⟩ | ⟨f, _, ht', -, -⟩ := cases_of_mapError_eq (Traced.mk.inj h).1
  · rw [hu, ← ht', ht]
  · rw [ht] at ht'
    exact absurd ht' (by simp)

/-- A value is the value of all trees that differ in positions only. -/
theorem Expr.evaluate_result_of_bare {e e' : Expr} {s t : Scope} (he : e.bare = e'.bare)
    (h : s.Matches t) {v : Value} (hv : (e.evaluate s).result = .ok v) :
    (e'.evaluate t).result = .ok v :=
  Traced.result_of_bare (evaluate_of_same he h) hv

end Reckon
