import Mathlib.Data.List.Forall2
import Reckon.Proofs.Expr.Locating
/-
  The order of an evaluation. A walk over a tree enters every node before what is below it, and
  leaves operators and calls after it, from left to right (`Expr.walk`). On entering, a literal is
  read, a variable looked up, and an operator or a function resolved; on leaving, what was resolved
  is applied to the values that the walk has come to in between (`Visit.perform`). An evaluation is
  this walk, up to the first visit that fails (`Evaluation.eval_follows_walk`).

  So calls are made by operators and calls of the tree alone, each of which makes one, in the order
  in which they are left, which is the order of `Expr.applications`: everything below a node before
  the node. A call that is made has the values of what is below its node (`Evaluation.Applies`).

  Calls may have effects, on the tables that the evaluation reads as well. Which calls were made is
  asked of the state, which notes them (`Host.Notes`); states of any host can be made to
  (`Evaluation.notes_noting`), and this changes no evaluation (`Evaluation.eval_noting`). Where
  calls have no effects, a call has the values that what is below its node has on its own
  (`Expr.evaluate_calls`).
-/
namespace Reckon

/-! ## Trees as walks -/

namespace Expr

/-- What is right below a node, from left to right. -/
def children : Expr → List Expr
  | unary _ x _ => [x]
  | binary _ l r _ => [l, r]
  | call _ args _ => args
  | constant .. | var .. | unknown .. => []

/-- Whether a node applies something to what is below it: an operator or a call. -/
def isApplication : Expr → Bool
  | unary .. | binary .. | call .. => true
  | constant .. | var .. | unknown .. => false

/-- Induction over trees, from what is right below a node to the node. -/
theorem induction_children {P : Expr → Prop} (leaf : ∀ x, x.isApplication = false → P x)
    (application : ∀ x, x.isApplication = true → (∀ y ∈ x.children, P y) → P x) (x : Expr) :
    P x := by
  induction x using Expr.induction with
  | constant | var | unknown => exact leaf _ rfl
  | unary op y position ih =>
    exact application _ rfl fun z hz => List.mem_singleton.1 hz ▸ ih
  | binary op l r position ihl ihr =>
    refine application _ rfl fun z hz => ?_
    rcases List.mem_pair.1 hz with rfl | rfl
    · exact ihl
    · exact ihr
  | call name args position ih => exact application _ rfl ih

end Expr

/-- A visit to a node on the walk over a tree. -/
inductive Visit where
  /-- The walk comes to the node, before what is below it. -/
  | enter (node : Expr)
  /-- The walk goes on from the operator or call, after what is below it. -/
  | leave (node : Expr)

namespace Expr

mutual
/-- The walk over a tree. -/
def walk : Expr → List Visit
  | constant t p => [.enter (constant t p)]
  | var n p => [.enter (var n p)]
  | unary o x p => .enter (unary o x p) :: (x.walk ++ [.leave (unary o x p)])
  | binary o l r p => .enter (binary o l r p) :: (l.walk ++ r.walk ++ [.leave (binary o l r p)])
  | call n args p => .enter (call n args p) :: (walkAll args ++ [.leave (call n args p)])
  | unknown t p => [.enter (unknown t p)]

def walkAll : List Expr → List Visit
  | [] => []
  | x :: xs => x.walk ++ walkAll xs
end

mutual
/-- The operators and calls of a tree, from left to right, each after what is below it. -/
def applications : Expr → List Expr
  | constant .. | var .. | unknown .. => []
  | unary o x p => x.applications ++ [unary o x p]
  | binary o l r p => l.applications ++ r.applications ++ [binary o l r p]
  | call n args p => applicationsAll args ++ [call n args p]

def applicationsAll : List Expr → List Expr
  | [] => []
  | x :: xs => x.applications ++ applicationsAll xs
end

variable {x : Expr}

theorem walk_of_leaf (hx : x.isApplication = false) : x.walk = [.enter x] := by
  cases x with
  | constant | var | unknown => rw [walk]
  | unary | binary | call => exact absurd hx (by simp [isApplication])

theorem walk_of_application (hx : x.isApplication = true) :
    x.walk = .enter x :: (walkAll x.children ++ [.leave x]) := by
  cases x with
  | unary | binary | call => simp [walk, walkAll, children]
  | constant | var | unknown => exact absurd hx (by simp [isApplication])

end Expr

/-- The node of a visit that applies it. -/
def Visit.applied? : Visit → Option Expr
  | enter _ => none
  | leave node => some node

/-- The nodes that visits apply. -/
def Visit.applied (visits : List Visit) : List Expr := visits.filterMap applied?

theorem Visit.applied_append (vs ws : List Visit) : applied (vs ++ ws) = applied vs ++ applied ws :=
  List.filterMap_append

mutual
/-- The walk leaves operators and calls after what is below them. -/
theorem Expr.applied_walk (x : Expr) : Visit.applied x.walk = x.applications := by
  match x with
  | .constant .. | .var .. | .unknown .. =>
    rw [walk, applications]
    rfl
  | .unary o y p =>
    rw [walk, applications, ← Expr.applied_walk y]
    exact Visit.applied_append y.walk [.leave (.unary o y p)]
  | .binary o l r p =>
    rw [walk, applications, ← Expr.applied_walk l, ← Expr.applied_walk r, ← Visit.applied_append]
    exact Visit.applied_append (l.walk ++ r.walk) [.leave (.binary o l r p)]
  | .call n args p =>
    rw [walk, applications, ← Expr.applied_walkAll args]
    exact Visit.applied_append (walkAll args) [.leave (.call n args p)]

theorem Expr.applied_walkAll (xs : List Expr) :
    Visit.applied (walkAll xs) = applicationsAll xs := by
  match xs with
  | [] =>
    rw [walkAll, applicationsAll]
    rfl
  | x :: xs =>
    rw [walkAll, applicationsAll, Visit.applied_append, Expr.applied_walk x,
      Expr.applied_walkAll xs]
end

/-! ## What a visit does -/

/-- What a node applies, in a scope: what its operator or its name stands for. -/
def Scope.callee? (s : Scope) : Expr → Option Function
  | .unary op _ _ => s.operators.unary.find? op
  | .binary op _ _ _ => s.operators.binary.find? op
  | .call name _ _ => s.function? name
  | .constant .. | .var .. | .unknown .. => none

namespace Evaluation

variable {σ : Type}

/-- How far a walk has come: the state, the values that wait to be applied to, and the functions
that wait to be applied, the last ones first. -/
structure Progress (σ : Type) where
  state : σ
  values : List Value
  callees : List Function

/-- One more value, or the failure to come by it. -/
def Progress.gain (m : Progress σ) : Except Failure Value → EStateM.Result Failure (Progress σ) Unit
  | .ok v => .ok () { m with values := v :: m.values }
  | .error e => .error e m

/-- One more function that waits to be applied. -/
def Progress.resolve (m : Progress σ) (unknown : Failure) :
    Option Function → EStateM.Result Failure (Progress σ) Unit
  | some f => .ok () { m with callees := f :: m.callees }
  | none => .error unknown m

/-- What an application comes to: a value in place of those that it took, or a failure. -/
def Progress.conclude (m : Progress σ) (values : List Value) (callees : List Function) :
    EStateM.Result Failure σ Value → EStateM.Result Failure (Progress σ) Unit
  | .ok v s => .ok () ⟨s, v :: values, callees⟩
  | .error e s => .error e { m with state := s }

/-- Applies the function that was resolved last to the last values, as many as it is given. -/
def Progress.settle (m : Progress σ) (count : Nat)
    (apply : Function → List Value → EStateM Failure σ Value) :
    EStateM.Result Failure (Progress σ) Unit :=
  match m.callees with
  | [] => .ok () m
  | f :: fs =>
    m.conclude (m.values.drop count) fs (apply f (m.values.take count).reverse m.state)

end Evaluation

open Evaluation

variable {σ : Type} {h : Host σ} {calls : σ → List Invocation}

/-- Every call that a state goes through is noted in it, after those before. -/
def Host.Notes (h : Host σ) (calls : σ → List Invocation) : Prop :=
  ∀ f args s, calls (left (h.call f args s)) = calls s ++ [⟨f, args⟩]

/-- How a function is applied at a node: in one way at an operator, in another at a call. -/
def Expr.applyBy (h : Host σ) : Expr → Function → List Value → EStateM Failure σ Value
  | unary op _ position | binary op _ _ position => applyOperator h op position
  | call name _ position => applyFunction h name position
  | constant .. | var .. | unknown .. => fun _ _ => pure .none

/-- What is wrong with a node that cannot be entered. -/
def Expr.obstacle : Expr → Problem
  | constant text _ => .invalidLiteral text
  | var name _ => .undefinedVariable name
  | unary op _ _ => .unknownOperator op "unary"
  | binary op _ _ _ => .unknownOperator op "binary"
  | call name _ _ => .undefinedFunction name
  | unknown type _ => .unknownNode type

/-- The error of a node that cannot be entered. -/
def Expr.refusal (h : Host σ) (x : Expr) (s : σ) (cause : Option Fault.Kind := none) : Failure :=
  nodeError h s x.obstacle x.position cause

/-- Comes to a node: a literal is read, a variable looked up, an operator or a function resolved. -/
def Visit.performEnter (h : Host σ) (node : Expr) (m : Progress σ) :
    EStateM.Result Failure (Progress σ) Unit :=
  match node with
  | .constant text _ =>
    m.gain ((Literal.value text).mapError fun f => node.refusal h m.state (some f.kind))
  | .var name _ =>
    m.gain (((h.scope m.state).bindings.find? name).elim (.error (node.refusal h m.state)) .ok)
  | .unary .. | .binary .. | .call .. =>
    m.resolve (node.refusal h m.state) ((h.scope m.state).callee? node)
  | .unknown .. => .error (node.refusal h m.state) m

/-- What happens at a visit. -/
def Visit.perform (h : Host σ) : Visit → EStateM Failure (Progress σ) Unit
  | .enter node => fun m => performEnter h node m
  | .leave node => fun m => m.settle node.children.length (node.applyBy h)

namespace Evaluation

/-- Visits one after the other, up to the first that fails. -/
def tour (h : Host σ) : List Visit → EStateM Failure (Progress σ) Unit
  | [] => pure ()
  | v :: vs => do
    v.perform h
    tour h vs

theorem tour_append {vs : List Visit} (ws : List Visit) {m m' : Progress σ}
    (hvs : tour h vs m = .ok () m') : tour h (vs ++ ws) m = tour h ws m' := by
  induction vs generalizing m with
  | nil =>
    obtain ⟨-, rfl⟩ := EStateM.Result.ok.inj hvs
    rfl
  | cons v vs ih =>
    obtain ⟨_, m₁, hv, hrest⟩ := exists_of_run_eq_ok hvs
    exact (bind_of_eq_ok hv).trans (ih hrest)

theorem tour_singleton {v : Visit} {m m' : Progress σ} (hv : v.perform h m = .ok () m') :
    tour h [v] m = .ok () m' :=
  bind_of_eq_ok hv

/-! ## Nodes that apply something -/

/-- An evaluation resolves an operator or a name, evaluates what is below it, and applies. -/
theorem eval_application {x : Expr} (hx : x.isApplication = true) (s : σ) :
    eval h x s = ((h.scope s).callee? x).elim (failAt h x.obstacle x.position)
      (fun f => do
        let vs ← evalAll h x.children
        x.applyBy h f vs) s := by
  cases x with
  | unary op y position =>
    rw [eval_unary, Scope.callee?]
    cases (h.scope s).operators.unary.find? op with
    | none => rfl
    | some f => simp [Expr.children, evalAll, Expr.applyBy]
  | binary op l r position =>
    rw [eval_binary, Scope.callee?]
    cases (h.scope s).operators.binary.find? op with
    | none => rfl
    | some f => simp [Expr.children, evalAll, Expr.applyBy]
  | call name args position => exact eval_call h name args position s
  | constant | var | unknown => exact absurd hx (by simp [Expr.isApplication])

variable {x y z : Expr} {s s₁ s' : σ} {v : Value} {vs : List Value} {f : Function} {e : Failure}

theorem of_application_eq_ok (hx : x.isApplication = true) (hrun : eval h x s = .ok v s') :
    ∃ f vs s₁, (h.scope s).callee? x = some f ∧ evalAll h x.children s = .ok vs s₁
      ∧ x.applyBy h f vs s₁ = .ok v s' := by
  rw [eval_application hx] at hrun
  cases hf : (h.scope s).callee? x with
  | none =>
    rw [hf] at hrun
    exact absurd hrun (by simp [failAt])
  | some f =>
    rw [hf] at hrun
    obtain ⟨vs, s₁, hvs, happly⟩ := exists_of_run_eq_ok hrun
    exact ⟨f, vs, s₁, rfl, hvs, happly⟩

/-- An operator or a call fails because it stands for nothing, below it, or as it is applied. -/
theorem of_application_eq_error (hx : x.isApplication = true) (hrun : eval h x s = .error e s') :
    ((h.scope s).callee? x = none ∧ e = x.refusal h s ∧ s' = s)
      ∨ ∃ f, (h.scope s).callee? x = some f ∧ (evalAll h x.children s = .error e s'
        ∨ ∃ vs s₁, evalAll h x.children s = .ok vs s₁ ∧ x.applyBy h f vs s₁ = .error e s') := by
  rw [eval_application hx] at hrun
  cases hf : (h.scope s).callee? x with
  | none =>
    rw [hf] at hrun
    obtain ⟨he, hs⟩ := EStateM.Result.error.inj hrun
    exact Or.inl ⟨rfl, he.symm, hs.symm⟩
  | some f =>
    rw [hf] at hrun
    exact Or.inr ⟨f, rfl, exists_of_run_eq_error hrun⟩

theorem length_of_evalAll {xs : List Expr} (hrun : evalAll h xs s = .ok vs s') :
    vs.length = xs.length := by
  induction xs generalizing s vs with
  | nil =>
    rw [evalAll] at hrun
    rw [← (EStateM.Result.ok.inj hrun).1]
    rfl
  | cons x xs ih =>
    rw [evalAll] at hrun
    obtain ⟨v, s₁, -, hrest⟩ := exists_of_run_eq_ok hrun
    obtain ⟨ws, s₂, hxs, hpure⟩ := exists_of_run_eq_ok hrest
    obtain ⟨rfl, rfl⟩ := EStateM.Result.ok.inj hpure
    rw [List.length_cons, ih hxs, List.length_cons]

/-- What is reached from below a node is reached from the node. -/
theorem Reaches.child {before after : List Expr} (hf : (h.scope s).callee? x = some f)
    (hchildren : x.children = before ++ y :: after) (hbefore : evalAll h before s = .ok vs s₁)
    (hy : Reaches h y s₁ z s') : Reaches h x s z s' := by
  have hnil : ∀ {s s₁ vs}, evalAll h [] s = .ok vs s₁ → s = s₁ := by
    intro s s₁ vs hrun
    rw [evalAll] at hrun
    exact (EStateM.Result.ok.inj hrun).2
  cases x with
  | unary op w position =>
    cases before with
    | nil =>
      obtain ⟨rfl, -⟩ := List.cons.inj hchildren
      obtain rfl := hnil hbefore
      exact .operand hf hy
    | cons b before => exact absurd hchildren (by simp [Expr.children])
  | binary op l r position =>
    cases before with
    | nil =>
      obtain ⟨rfl, -⟩ := List.cons.inj hchildren
      obtain rfl := hnil hbefore
      exact .leftOperand hf hy
    | cons b before =>
      obtain ⟨rfl, hrest⟩ := List.cons.inj hchildren
      cases before with
      | nil =>
        obtain ⟨rfl, -⟩ := List.cons.inj hrest
        rw [evalAll] at hbefore
        obtain ⟨a, s₂, hl, hnone⟩ := exists_of_run_eq_ok hbefore
        obtain ⟨ws, s₃, hws, hpure⟩ := exists_of_run_eq_ok hnone
        obtain rfl := hnil hws
        obtain ⟨-, rfl⟩ := EStateM.Result.ok.inj hpure
        exact .rightOperand hf hl hy
      | cons b' before => exact absurd hrest (by simp)
  | call name args position =>
    obtain rfl : args = before ++ y :: after := hchildren
    exact .argument hf hbefore hy
  | constant | var | unknown => exact absurd hf (by simp [Scope.callee?])

/-! ## Visits -/

theorem perform_enter_application (hx : x.isApplication = true) (m : Progress σ) :
    (Visit.enter x).perform h m
      = m.resolve (x.refusal h m.state) ((h.scope m.state).callee? x) := by
  cases x with
  | unary | binary | call => rfl
  | constant | var | unknown => exact absurd hx (by simp [Expr.isApplication])

/-- Entering a leaf is evaluating it. -/
theorem perform_enter_leaf (hx : x.isApplication = false) (m : Progress σ) :
    (∃ v, eval h x m.state = .ok v m.state
        ∧ (Visit.enter x).perform h m = .ok () { m with values := v :: m.values })
      ∨ ∃ e, eval h x m.state = .error e m.state ∧ (Visit.enter x).perform h m = .error e m := by
  cases x with
  | constant text position =>
    rw [eval]
    show (∃ v, _ ∧ m.gain ((Literal.value text).mapError _) = _)
      ∨ ∃ e, _ ∧ m.gain ((Literal.value text).mapError _) = _
    cases Literal.value text with
    | ok v => exact Or.inl ⟨v, rfl, rfl⟩
    | error fault => exact Or.inr ⟨_, rfl, rfl⟩
  | var name position =>
    rw [eval_var]
    show (∃ v, _ ∧ m.gain (((h.scope m.state).bindings.find? name).elim _ _) = _)
      ∨ ∃ e, _ ∧ m.gain (((h.scope m.state).bindings.find? name).elim _ _) = _
    cases (h.scope m.state).bindings.find? name with
    | some v => exact Or.inl ⟨v, rfl, rfl⟩
    | none => exact Or.inr ⟨_, rfl, rfl⟩
  | unknown type position =>
    rw [eval]
    exact Or.inr ⟨_, rfl, rfl⟩
  | unary | binary | call => exact absurd hx (by simp [Expr.isApplication])

/-- Leaving a node applies what it stands for to the values of what is below it. -/
theorem perform_leave (hvs : vs.length = x.children.length) (f : Function) (ws : List Value)
    (fs : List Function) (s : σ) :
    (Visit.leave x).perform h ⟨s, vs.reverse ++ ws, f :: fs⟩
      = Progress.conclude ⟨s, vs.reverse ++ ws, f :: fs⟩ ws fs (x.applyBy h f vs s) := by
  have hlength : vs.reverse.length = x.children.length := by rw [List.length_reverse, hvs]
  have htake : (vs.reverse ++ ws).take x.children.length = vs.reverse := by
    rw [← hlength, List.take_left]
  have hdrop : (vs.reverse ++ ws).drop x.children.length = ws := by
    rw [← hlength, List.drop_left]
  show Progress.conclude _ ((vs.reverse ++ ws).drop x.children.length) fs
    (x.applyBy h f ((vs.reverse ++ ws).take x.children.length).reverse s) = _
  rw [htake, hdrop, List.reverse_reverse]

/-! ## Calls that are made -/

variable {visits visits' : List Visit} {m m' m'' : Progress σ} {R R' : Expr → Invocation → Prop}

theorem left_applyBy (hx : x.isApplication = true) (f : Function) (args : List Value) (s : σ) :
    left (x.applyBy h f args s) = left (h.call f args s) := by
  have hoperator : ∀ op position,
      left (applyOperator h op position f args s) = left (h.call f args s) := by
    intro op position
    unfold applyOperator
    cases h.call f args s with
    | ok | error => rfl
  cases x with
  | unary | binary => exact hoperator _ _
  | call name xs position =>
    show left (applyFunction h name position f args s) = _
    unfold applyFunction
    cases h.call f args s with
    | ok | error => rfl
  | constant | var | unknown => exact absurd hx (by simp [Expr.isApplication])

/-- In the evaluation of a tree from a state, a call is made by a node: the evaluation comes to the
node, which stands for the function that is called, and the arguments are the values of what is
below it, evaluated from there on in order. -/
def Applies (h : Host σ) (x : Expr) (s : σ) (node : Expr) (i : Invocation) : Prop :=
  ∃ s₁ s₂, Reaches h x s node s₁ ∧ (h.scope s₁).callee? node = some i.callee
    ∧ evalAll h node.children s₁ = .ok i.args s₂

/-- A call is made by a node in one of several trees that are evaluated in order. -/
def AppliesAll (h : Host σ) (xs : List Expr) (s : σ) (node : Expr) (i : Invocation) : Prop :=
  ∃ before x after vs s₁, xs = before ++ x :: after ∧ evalAll h before s = .ok vs s₁
    ∧ Applies h x s₁ node i

theorem AppliesAll.applies {node : Expr} {i : Invocation} (hf : (h.scope s).callee? x = some f)
    (hi : AppliesAll h x.children s node i) : Applies h x s node i := by
  obtain ⟨before, y, after, vs, s₁, hchildren, hbefore, s₂, s₃, hreach, hcallee, hargs⟩ := hi
  exact ⟨s₂, s₃, hreach.child hf hchildren hbefore, hcallee, hargs⟩

theorem AppliesAll.head (xs : List Expr) {node : Expr} {i : Invocation}
    (hi : Applies h x s node i) : AppliesAll h (x :: xs) s node i :=
  ⟨[], x, xs, [], s, rfl, by rw [evalAll]; rfl, hi⟩

theorem AppliesAll.tail {xs : List Expr} {node : Expr} {i : Invocation}
    (hx : eval h x s = .ok v s₁) (hi : AppliesAll h xs s₁ node i) :
    AppliesAll h (x :: xs) s node i := by
  obtain ⟨before, y, after, vs, s₂, rfl, hbefore, hy⟩ := hi
  refine ⟨x :: before, y, after, v :: vs, s₂, rfl, ?_, hy⟩
  rw [evalAll]
  exact (bind_of_eq_ok hx).trans (bind_of_eq_ok hbefore)

/-- A walk passes visits: none of them fails, and the calls that are made are those that the nodes
make that are applied, one each and in this order, in the way that `R` says. -/
structure Passes (h : Host σ) (calls : σ → List Invocation) (R : Expr → Invocation → Prop)
    (visits : List Visit) (m m' : Progress σ) : Prop where
  tour : tour h visits m = .ok () m'
  calls : ∃ made, calls m'.state = calls m.state ++ made
    ∧ List.Forall₂ R (Visit.applied visits) made

/-- A walk passes some visits and stops at the next one, which fails and leaves a state. It may have
made one more call. -/
def Stops (h : Host σ) (calls : σ → List Invocation) (R : Expr → Invocation → Prop)
    (visits : List Visit) (m : Progress σ) (e : Failure) (s' : σ) : Prop :=
  ∃ before visit after m₁ m₂ made, visits = before ++ visit :: after ∧ Passes h calls R before m m₁
    ∧ visit.perform h m₁ = .error e m₂ ∧ m₂.state = s' ∧ calls s' = calls m₁.state ++ made
    ∧ List.Forall₂ R (Visit.applied [visit]) made

theorem Passes.nil (m : Progress σ) : Passes h calls R [] m m :=
  ⟨rfl, [], (List.append_nil _).symm, .nil⟩

theorem Passes.mono (hp : Passes h calls R visits m m') (hR : ∀ node i, R node i → R' node i) :
    Passes h calls R' visits m m' := by
  obtain ⟨htour, made, hmade, hforall⟩ := hp
  exact ⟨htour, made, hmade, hforall.imp hR⟩

theorem Passes.append (hp : Passes h calls R visits m m') (hp' : Passes h calls R visits' m' m'') :
    Passes h calls R (visits ++ visits') m m'' := by
  obtain ⟨htour, made, hmade, hforall⟩ := hp
  obtain ⟨htour', made', hmade', hforall'⟩ := hp'
  refine ⟨(tour_append visits' htour).trans htour', made ++ made', ?_, ?_⟩
  · rw [hmade', hmade, List.append_assoc]
  · rw [Visit.applied_append]
    exact List.rel_append hforall hforall'

/-- Nothing is called on entering a node. -/
theorem Passes.enter (hstate : m'.state = m.state)
    (hx : (Visit.enter x).perform h m = .ok () m') : Passes h calls R [.enter x] m m' :=
  ⟨tour_singleton hx, [], by rw [hstate, List.append_nil], .nil⟩

theorem Stops.mono (hs : Stops h calls R visits m e s') (hR : ∀ node i, R node i → R' node i) :
    Stops h calls R' visits m e s' := by
  obtain ⟨before, visit, after, m₁, m₂, made, hvisits, hpasses, hfail, hstate, hmade, hforall⟩ := hs
  exact ⟨before, visit, after, m₁, m₂, made, hvisits, hpasses.mono hR, hfail, hstate, hmade,
    hforall.imp hR⟩

theorem Stops.append (hs : Stops h calls R visits m e s') (visits' : List Visit) :
    Stops h calls R (visits ++ visits') m e s' := by
  obtain ⟨before, visit, after, m₁, m₂, made, rfl, hrest⟩ := hs
  exact ⟨before, visit, after ++ visits', m₁, m₂, made, by simp, hrest⟩

theorem Passes.stops (hp : Passes h calls R visits m m') (hs : Stops h calls R visits' m' e s') :
    Stops h calls R (visits ++ visits') m e s' := by
  obtain ⟨before, visit, after, m₁, m₂, made, rfl, hpasses, hrest⟩ := hs
  exact ⟨visits ++ before, visit, after, m₁, m₂, made, by simp, hp.append hpasses, hrest⟩

/-- A walk stops at a node that cannot be entered. -/
theorem Stops.enter (hx : (Visit.enter x).perform h m = .error e m) :
    Stops h calls R [.enter x] m e m.state :=
  ⟨[], .enter x, [], m, m, [], rfl, .nil m, hx, rfl, (List.append_nil _).symm, .nil⟩

section

variable (hnotes : h.Notes calls)
include hnotes

/-- Whether or not an application fails, the call is made. -/
theorem calls_applyBy (hx : x.isApplication = true) (f : Function) (args : List Value) (s : σ) :
    calls (left (x.applyBy h f args s)) = calls s ++ [⟨f, args⟩] := by
  rw [left_applyBy hx, hnotes f args s]

theorem Passes.leave (hx : x.isApplication = true) (hvs : vs.length = x.children.length)
    (happly : x.applyBy h f vs s = .ok v s') (hR : R x ⟨f, vs⟩) (ws : List Value)
    (fs : List Function) :
    Passes h calls R [.leave x] ⟨s, vs.reverse ++ ws, f :: fs⟩ ⟨s', v :: ws, fs⟩ := by
  have hperform := perform_leave (h := h) hvs f ws fs s
  have hcalls := calls_applyBy hnotes hx f vs s
  rw [happly] at hperform hcalls
  exact ⟨tour_singleton hperform, [⟨f, vs⟩], hcalls, .cons hR .nil⟩

/-- A walk stops at a node whose application fails. The call has been made. -/
theorem Stops.leave (hx : x.isApplication = true) (hvs : vs.length = x.children.length)
    (happly : x.applyBy h f vs s = .error e s') (hR : R x ⟨f, vs⟩) (ws : List Value)
    (fs : List Function) :
    Stops h calls R [.leave x] ⟨s, vs.reverse ++ ws, f :: fs⟩ e s' := by
  have hperform := perform_leave (h := h) hvs f ws fs s
  have hcalls := calls_applyBy hnotes hx f vs s
  rw [happly] at hperform hcalls
  exact ⟨[], .leave x, [], _, _, [⟨f, vs⟩], rfl, .nil _, hperform, rfl, hcalls, .cons hR .nil⟩

end

/-! ## Evaluations are walks -/

/-- The evaluation of a tree is the walk over it. -/
structure Follows (h : Host σ) (calls : σ → List Invocation) (x : Expr) : Prop where
  passes : ∀ {s v s'} (ws : List Value) (fs : List Function), eval h x s = .ok v s' →
    Passes h calls (Applies h x s) x.walk ⟨s, ws, fs⟩ ⟨s', v :: ws, fs⟩
  stops : ∀ {s e s'} (ws : List Value) (fs : List Function), eval h x s = .error e s' →
    Stops h calls (Applies h x s) x.walk ⟨s, ws, fs⟩ e s'

theorem passes_walkAll {xs : List Expr} (hxs : ∀ x ∈ xs, Follows h calls x) (ws : List Value)
    (fs : List Function) (hrun : evalAll h xs s = .ok vs s') :
    Passes h calls (AppliesAll h xs s) (Expr.walkAll xs) ⟨s, ws, fs⟩
      ⟨s', vs.reverse ++ ws, fs⟩ := by
  induction xs generalizing s vs ws with
  | nil =>
    rw [evalAll] at hrun
    obtain ⟨rfl, rfl⟩ := EStateM.Result.ok.inj hrun
    rw [Expr.walkAll]
    exact .nil _
  | cons x xs ih =>
    rw [evalAll] at hrun
    obtain ⟨v, s₁, hx, hrest⟩ := exists_of_run_eq_ok hrun
    obtain ⟨us, s₂, hus, hpure⟩ := exists_of_run_eq_ok hrest
    obtain ⟨rfl, rfl⟩ := EStateM.Result.ok.inj hpure
    have hhead := ((hxs x (List.mem_cons_self ..)).passes ws fs hx).mono fun _ _ hi =>
      AppliesAll.head xs hi
    have htail := (ih (fun y hy => hxs y (List.mem_cons_of_mem _ hy)) (v :: ws) hus).mono
      fun _ _ hi => hi.tail hx
    rw [Expr.walkAll, List.reverse_cons, List.append_assoc]
    exact hhead.append htail

theorem stops_walkAll {xs : List Expr} (hxs : ∀ x ∈ xs, Follows h calls x) (ws : List Value)
    (fs : List Function) (hrun : evalAll h xs s = .error e s') :
    Stops h calls (AppliesAll h xs s) (Expr.walkAll xs) ⟨s, ws, fs⟩ e s' := by
  induction xs generalizing s ws with
  | nil =>
    rw [evalAll] at hrun
    exact absurd hrun (by simp [pure, EStateM.pure])
  | cons x xs ih =>
    have hfollows := hxs x (List.mem_cons_self ..)
    rw [evalAll] at hrun
    rw [Expr.walkAll]
    obtain hx | ⟨v, s₁, hx, hrest⟩ := exists_of_run_eq_error hrun
    · exact ((hfollows.stops ws fs hx).mono fun _ _ hi => AppliesAll.head _ hi).append _
    obtain htail | ⟨us, s₂, -, hpure⟩ := exists_of_run_eq_error hrest
    · have hhead := (hfollows.passes ws fs hx).mono fun _ _ hi => AppliesAll.head xs hi
      exact hhead.stops ((ih (fun y hy => hxs y (List.mem_cons_of_mem _ hy)) (v :: ws) htail).mono
        fun _ _ hi => hi.tail hx)
    · exact absurd hpure (by simp [pure, EStateM.pure])

theorem follows (hnotes : h.Notes calls) (x : Expr) : Follows h calls x := by
  induction x using Expr.induction_children with
  | leaf x hx =>
    constructor
    · intro s v s' ws fs hrun
      obtain ⟨v', hv, hperform⟩ | ⟨e, he, -⟩ := perform_enter_leaf (h := h) hx ⟨s, ws, fs⟩
      · obtain ⟨rfl, rfl⟩ := EStateM.Result.ok.inj (hv.symm.trans hrun)
        rw [Expr.walk_of_leaf hx]
        exact .enter rfl hperform
      · exact absurd (he.symm.trans hrun) (by simp)
    · intro s e s' ws fs hrun
      obtain ⟨v', hv, -⟩ | ⟨e', he, hperform⟩ := perform_enter_leaf (h := h) hx ⟨s, ws, fs⟩
      · exact absurd (hv.symm.trans hrun) (by simp)
      · obtain ⟨rfl, rfl⟩ := EStateM.Result.error.inj (he.symm.trans hrun)
        rw [Expr.walk_of_leaf hx]
        exact .enter hperform
  | application x hx ih =>
    have hresolve : ∀ {s f} (ws : List Value) (fs : List Function),
        (h.scope s).callee? x = some f →
        Passes h calls (Applies h x s) [.enter x] ⟨s, ws, fs⟩ ⟨s, ws, f :: fs⟩ := by
      intro s f ws fs hf
      refine .enter rfl ?_
      rw [perform_enter_application hx, hf]
      rfl
    constructor
    · intro s v s' ws fs hrun
      obtain ⟨f, vs, s₁, hf, hvs, happly⟩ := of_application_eq_ok hx hrun
      have hbelow := (passes_walkAll ih ws (f :: fs) hvs).mono fun _ _ hi => hi.applies hf
      have hleave := Passes.leave hnotes hx (length_of_evalAll hvs) happly
        (R := Applies h x s) ⟨s, s₁, .here x s, hf, hvs⟩ ws fs
      rw [Expr.walk_of_application hx]
      exact (hresolve ws fs hf).append (hbelow.append hleave)
    · intro s e s' ws fs hrun
      rw [Expr.walk_of_application hx]
      obtain ⟨hf, rfl, rfl⟩ | ⟨f, hf, hrest⟩ := of_application_eq_error hx hrun
      · refine (Stops.enter ?_).append _
        rw [perform_enter_application hx, hf]
        rfl
      · refine (hresolve ws fs hf).stops ?_
        obtain hbelow | ⟨vs, s₁, hvs, happly⟩ := hrest
        · exact ((stops_walkAll ih ws (f :: fs) hbelow).mono fun _ _ hi => hi.applies hf).append _
        · have hbelow := (passes_walkAll ih ws (f :: fs) hvs).mono fun _ _ hi => hi.applies hf
          exact hbelow.stops (Stops.leave hnotes hx (length_of_evalAll hvs) happly
            (R := Applies h x s) ⟨s, s₁, .here x s, hf, hvs⟩ ws fs)

/-- What a walk over a tree has called when it stops. -/
theorem Stops.made (hs : Stops h calls R x.walk m e s') :
    ∃ before visit after m₁ m₂ made, x.walk = before ++ visit :: after
      ∧ tour h before m = .ok () m₁ ∧ visit.perform h m₁ = .error e m₂ ∧ m₂.state = s'
      ∧ calls s' = calls m.state ++ made
      ∧ List.Forall₂ R (Visit.applied (before ++ [visit])) made
      ∧ Visit.applied (before ++ [visit]) <+: x.applications := by
  obtain ⟨before, visit, after, m₁, m₂, made', hwalk, ⟨htour, made, hmade, hforall⟩, hfail, hstate,
    hmade', hforall'⟩ := hs
  refine ⟨before, visit, after, m₁, m₂, made ++ made', hwalk, htour, hfail, hstate, ?_, ?_, ?_⟩
  · rw [hmade', hmade, List.append_assoc]
  · rw [Visit.applied_append]
    exact List.rel_append hforall hforall'
  · refine ⟨Visit.applied after, ?_⟩
    rw [← Visit.applied_append, List.append_assoc, List.singleton_append, ← hwalk, x.applied_walk]

/-- An evaluation is the walk over the tree, up to the first visit that fails. If it comes to a
value, each operator and call of the tree has made one call, in the order of `Expr.applications`. If
it fails, this is so of those that were applied up to the failure; no call is made after it. -/
theorem eval_follows_walk (hnotes : h.Notes calls) (x : Expr) (s : σ) :
    (∀ v s', eval h x s = .ok v s' →
      tour h x.walk ⟨s, [], []⟩ = .ok () ⟨s', [v], []⟩
        ∧ ∃ made, calls s' = calls s ++ made ∧ List.Forall₂ (Applies h x s) x.applications made)
    ∧ ∀ e s', eval h x s = .error e s' →
      ∃ before visit after m m' made, x.walk = before ++ visit :: after
        ∧ tour h before ⟨s, [], []⟩ = .ok () m ∧ visit.perform h m = .error e m' ∧ m'.state = s'
        ∧ calls s' = calls s ++ made
        ∧ List.Forall₂ (Applies h x s) (Visit.applied (before ++ [visit])) made
        ∧ Visit.applied (before ++ [visit]) <+: x.applications := by
  constructor
  · intro v s' hrun
    obtain ⟨htour, made, hmade, hforall⟩ := (follows hnotes x).passes [] [] hrun
    rw [x.applied_walk] at hforall
    exact ⟨htour, made, hmade, hforall⟩
  · intro e s' hrun
    exact ((follows hnotes x).stops [] [] hrun).made

/-! ## States that note calls -/

/-- A host whose states note the calls that are made, beside what they are. -/
def noting (h : Host σ) : Host (σ × List Invocation) where
  scope s := h.scope s.1
  call f args := fun s =>
    match h.call f args s.1 with
    | .ok v s' => .ok v (s', s.2 ++ [⟨f, args⟩])
    | .error e s' => .error e (s', s.2 ++ [⟨f, args⟩])

theorem notes_noting (h : Host σ) : (noting h).Notes Prod.snd := by
  intro f args s
  show (left ((noting h).call f args s)).2 = _
  unfold noting
  dsimp only
  cases h.call f args s.1 with
  | ok | error => rfl

/-- To note calls changes nothing else. -/
theorem eval_noting (h : Host σ) (x : Expr) (s : σ) (calls : List Invocation) :
    Agree (fun t s => t.1 = s) Eq (eval (noting h) x (s, calls)) (eval h x s) := by
  have halike : Alike (noting h) h id (fun t s => t.1 = s) Eq := by
    refine ⟨?_, ?_, ?_, ?_, ?_⟩
    · rintro t _ rfl
      exact ⟨rfl, rfl, rfl⟩
    · rintro _ _ t _ f args - - rfl
      show Agree _ Eq ((noting h).call f args t) (h.call f args t.1)
      unfold noting
      dsimp only
      cases h.call f args t.1 with
      | ok | error => exact ⟨rfl, rfl⟩
    · rintro t _ problem position cause rfl
      rfl
    · rintro t _ op position e rfl
      rfl
    · rintro t _ name position e rfl
      rfl
  have hagree := eval_agree halike x (s := (s, calls)) (t := s) rfl
  rwa [x.relocate_id] at hagree

end Evaluation

/-! ## Evaluations without effects -/

namespace Desk

theorem notes_host : host.Notes Desk.calls := by
  intro f args d
  show (left (call f args d)).calls = _
  rw [call_scope]
  cases f.apply args with
  | ok | error => rfl

/-- Nothing on a desk changes but the calls. -/
theorem keeps_scope {s : Scope} (f : Function) (args : List Value) (d : Desk) (hd : d.scope = s) :
    (left (host.call f args d)).scope = s := by
  show (left (call f args d)).scope = s
  rw [call_scope]
  cases f.apply args with
  | ok | error => exact hd

/-- Nothing depends on the calls that were made. -/
theorem alike_host : Alike host host id (fun d d' => host.scope d = host.scope d') Eq := by
  refine ⟨fun hd => ⟨by rw [hd], by rw [hd], by rw [hd]⟩, ?_, ?_, ?_, ?_⟩
  · intro _ _ d d' f args _ _ hd
    show Agree _ Eq (call f args d) (call f args d')
    rw [call_scope, call_scope]
    cases f.apply args with
    | ok | error => exact ⟨rfl, hd⟩
  · intro _ _ problem position cause hd
    rw [hd, id]
  · intro _ _ op position e hd
    rw [hd, id]
  · intro _ _ name position e hd
    rw [hd, id]

variable {s : Scope} {x : Expr} {xs : List Expr} {d d' : Desk} {v : Value} {vs : List Value}

theorem scope_of_eval (hrun : eval host x d = .ok v d') : d'.scope = d.scope :=
  of_eq_ok (P := fun d' => d'.scope = d.scope) (eval_keeps (keeps_scope (s := d.scope)) x rfl) hrun

theorem evaluate_of_eval (hrun : eval host x d = .ok v d') :
    (x.evaluate d.scope).result = .ok v := by
  have hagree := eval_agree alike_host x (s := d) (t := ⟨d.scope, []⟩) rfl
  rw [hrun, x.relocate_id] at hagree
  rw [Expr.evaluate]
  cases hx : eval host x ⟨d.scope, []⟩ with
  | ok w d'' =>
    rw [hx] at hagree
    rw [hagree.1]
    rfl
  | error e d'' =>
    rw [hx] at hagree
    exact hagree.elim

theorem evaluate_of_evalAll (hrun : evalAll host xs d = .ok vs d') :
    List.Forall₂ (fun x v => (x.evaluate d.scope).result = .ok v) xs vs := by
  induction xs generalizing d vs with
  | nil =>
    rw [evalAll] at hrun
    rw [← (EStateM.Result.ok.inj hrun).1]
    exact .nil
  | cons x xs ih =>
    rw [evalAll] at hrun
    obtain ⟨v, d₁, hx, hrest⟩ := exists_of_run_eq_ok hrun
    obtain ⟨us, d₂, hus, hpure⟩ := exists_of_run_eq_ok hrest
    obtain ⟨rfl, rfl⟩ := EStateM.Result.ok.inj hpure
    have htail := ih hus
    rw [scope_of_eval hx] at htail
    exact .cons (evaluate_of_eval hx) htail

end Desk

/-- A call as a node makes it in a scope: of what the node stands for, with the values of what is
below it. -/
def Scope.Makes (s : Scope) (node : Expr) (i : Invocation) : Prop :=
  s.callee? node = some i.callee
    ∧ List.Forall₂ (fun x v => (x.evaluate s).result = .ok v) node.children i.args

theorem Desk.makes_of_applies {s : Scope} {x node : Expr} {i : Invocation}
    (hi : Applies host x ⟨s, []⟩ node i) : s.Makes node i := by
  obtain ⟨d, d', hreach, hcallee, hargs⟩ := hi
  have hd : d.scope = s := hreach.keeps (P := fun d => d.scope = s)
    (fun y _ hd => eval_keeps (keeps_scope (s := s)) y hd) rfl
  have hvalues := evaluate_of_evalAll hargs
  rw [hd] at hvalues
  exact ⟨hd ▸ hcallee, hvalues⟩

/-- The calls of an evaluation are those of the operators and calls of the tree, one each, from left
to right and from below; if it fails, they are the first of these. -/
theorem Expr.evaluate_calls (x : Expr) (s : Scope) :
    (∀ v, (x.evaluate s).result = .ok v →
      List.Forall₂ s.Makes x.applications (x.evaluate s).calls)
    ∧ ∀ e, (x.evaluate s).result = .error e →
      ∃ nodes, nodes <+: x.applications ∧ List.Forall₂ s.Makes nodes (x.evaluate s).calls := by
  have hfollows := follows Desk.notes_host x
  rw [Expr.evaluate]
  constructor
  · intro v hv
    cases hrun : eval Desk.host x ⟨s, []⟩ with
    | ok w d =>
      obtain ⟨-, made, hmade, hforall⟩ := hfollows.passes [] [] hrun
      rw [x.applied_walk] at hforall
      rw [List.nil_append] at hmade
      show List.Forall₂ _ _ d.calls
      rw [hmade]
      exact hforall.imp fun _ _ => Desk.makes_of_applies
    | error e d =>
      rw [hrun] at hv
      exact absurd hv (by simp [Traced.of])
  · intro e he
    cases hrun : eval Desk.host x ⟨s, []⟩ with
    | ok w d =>
      rw [hrun] at he
      exact absurd he (by simp [Traced.of])
    | error e d =>
      obtain ⟨before, visit, after, m₁, m₂, made, -, -, -, -, hmade, hforall, hnodes⟩ :=
        (hfollows.stops [] [] hrun).made
      rw [List.nil_append] at hmade
      refine ⟨_, hnodes, ?_⟩
      show List.Forall₂ _ _ d.calls
      rw [hmade]
      exact hforall.imp fun _ _ => Desk.makes_of_applies

/-- The walk over `f(x) + k(f(x))` where `k` is unknown: it stops as it comes to `k`, so that `f` is
called once. -/
theorem Evaluation.eval_follows_walk_unresolved :
    let fx (position : Int) : Expr := .call "f" [.var "x" (position + 2)] position
    let k : Expr := .call "k" [fx 7] 5
    let x : Expr := .binary "+" (fx 0) k 4
    let s : Scope := { bindings := [("x", .int 1)], functions := [("f", .record "f")] }
    Desk.host.Notes Desk.calls ∧ ∃ before visit after m m' made, x.walk = before ++ visit :: after
      ∧ tour Desk.host before ⟨⟨s, []⟩, [], []⟩ = .ok () m
      ∧ visit.perform Desk.host m
        = .error (.error { problem := .undefinedFunction "k", position := some 5 }) m'
      ∧ m'.state = ⟨s, [⟨.record "f", [.int 1]⟩]⟩ ∧ [⟨.record "f", [.int 1]⟩] = [] ++ made
      ∧ List.Forall₂ (Applies Desk.host x ⟨s, []⟩) (Visit.applied (before ++ [visit])) made
      ∧ Visit.applied (before ++ [visit]) <+: x.applications :=
  ⟨Desk.notes_host, (eval_follows_walk Desk.notes_host _ _).2 _ _ rfl⟩

end Reckon
