import Reckon.Proofs.Engine.Functions
/-
  Functions that leave the engine alone. A quiet function performs no steps: its answer depends on
  its arguments only. Where all functions in force are quiet, evaluating a tree on an engine at work
  leaves the engine as it is, and comes to what the tree evaluates to in the engine's scope, after
  the same calls (`Session.eval_eq`).
-/
namespace Reckon

/-! ## Quiet functions -/

/-- A function that performs no steps. -/
def Function.Quiet : Function → Prop
  | .script _ => False
  | _ => True

theorem Function.quiet_or_script (f : Function) : f.Quiet ∨ ∃ steps, f = .script steps := by
  cases f with
  | script steps => exact Or.inr ⟨steps, rfl⟩
  | native _ | record _ | inert _ => exact Or.inl trivial

/-- A section of functions that are all quiet. -/
def Section.Quiet : Section → Prop
  | .datum _ => True
  | .table entries => ∀ e ∈ entries, e.2.Quiet

/-- Operator functions that are all quiet, as they are given. -/
def OperatorSource.Quiet : OperatorSource → Prop
  | .datum _ => True
  | .mapping entries => ∀ e ∈ entries, e.2.Quiet
  | .tables unary binary => (∀ e ∈ unary, e.2.Quiet) ∧ ∀ e ∈ binary, e.2.Quiet

/-- Quiet operator functions are quiet one by one. -/
theorem OperatorSource.every_of_quiet {source : OperatorSource} (h : source.Quiet) :
    source.Every Function.Quiet := by
  cases source with
  | datum d => exact trivial
  | tables unary binary => exact h
  | mapping entries =>
    intro e he
    have hquiet := h e he
    cases hs : e.2 with
    | datum d => exact trivial
    | table fs =>
      rw [hs] at hquiet
      exact hquiet

/-- A function whose answer depends on its arguments alone is quiet. -/
theorem Function.quiet_native (run : List Value → Except Failure Value) : (native run).Quiet :=
  trivial

/-- A scope in which only quiet functions are called. -/
def Scope.Quiet (s : Scope) : Prop := ∀ f, s.Has f → f.Quiet

namespace Session

/-- A call that performs no steps. -/
def answer (f : Function) (args : List Value) : Run Value := fun w =>
  match f.apply args with
  | .ok v => .ok v w
  | .error e => .error e w

/-- A quiet function answers without a step. -/
theorem invoke_quiet {f : Function} (hf : f.Quiet) (depth : Nat) (args : List Value) (w : World) :
    invoke depth f args w = outcome (f.apply args) w := by
  have hanswer : invoke depth f args w = answer f args w := by
    cases f with
    | script steps => exact hf.elim
    | native run => cases depth <;> rfl
    | record tag => cases depth <;> rfl
    | inert v => cases depth <;> rfl
  rw [hanswer]
  unfold answer
  cases f.apply args with
  | ok v => rfl
  | error e => rfl

/-- An engine at work, left as it was, beside a desk with its scope: what has happened are the calls
at the desk. -/
structure Beside (w₀ w : World) (d : Desk) : Prop where
  engine : w.engine = w₀.engine
  events : w.events = w₀.events ++ d.calls.map .called
  desk : d.scope = w₀.engine.scope

theorem Beside.scope {w₀ w : World} {d : Desk} (h : Beside w₀ w d) {depth : Nat} :
    (host (invoke depth)).scope w = Desk.host.scope d := by
  show w.engine.scope = d.scope
  rw [h.engine, h.desk]

theorem alike_host {w₀ : World} (h : w₀.engine.scope.Quiet) (depth : Nat) :
    Evaluation.Alike (host (invoke depth)) Desk.host id (Beside w₀) Eq where
  scope := by
    intro w d hQ
    rw [hQ.scope]
    exact ⟨rfl, rfl, rfl⟩
  call := by
    intro w d w₁ d₁ f args hQ hf hQ₁
    have hquiet : f.Quiet := by
      have hf : w.engine.scope.Has f := hf
      rw [hQ.engine] at hf
      exact h f hf
    have hcall : (host (invoke depth)).call f args w₁
        = invoke depth f args { w₁ with events := w₁.events ++ [.called ⟨f, args⟩] } := rfl
    have hcalled : Beside w₀ { w₁ with events := w₁.events ++ [.called ⟨f, args⟩] }
        { d₁ with calls := d₁.calls ++ [⟨f, args⟩] } := by
      refine ⟨hQ₁.engine, ?_, hQ₁.desk⟩
      rw [hQ₁.events, List.map_append, List.append_assoc]
      rfl
    show Agree (Beside w₀) Eq ((host (invoke depth)).call f args w₁)
      (Desk.call f args d₁)
    rw [hcall, invoke_quiet hquiet, Desk.call_scope]
    cases f.apply args with
    | ok v => exact ⟨rfl, hcalled⟩
    | error e => exact ⟨rfl, hcalled⟩
  node := by
    intro w d problem position cause hQ
    show Failure.error _ = Failure.error _
    rw [hQ.scope]
    rfl
  operator := by
    intro w d op position err hQ
    rw [hQ.scope]
    rfl
  function := by
    intro w d name position err hQ
    rw [hQ.scope]
    rfl

/-- Evaluating on an engine with quiet functions leaves the engine alone, and comes to what the tree
evaluates to in its scope, after the same calls. -/
theorem eval_eq {w : World} (h : w.engine.scope.Quiet) (depth : Nat) (expr : Expr) :
    Evaluation.eval (host (invoke depth)) expr w
      = outcome (expr.evaluate w.engine.scope).result
          ⟨w.engine, w.events ++ (expr.evaluate w.engine.scope).calls.map .called⟩ := by
  have hagree := Evaluation.eval_agree (alike_host h depth) expr (s := w)
    (t := ⟨w.engine.scope, []⟩) ⟨rfl, (List.append_nil _).symm, rfl⟩
  rw [Expr.relocate_id] at hagree
  have hleft : ∀ {w' d}, Beside w w' d → w' = ⟨w.engine, w.events ++ d.calls.map .called⟩ := by
    intro w' d hQ
    rw [← hQ.engine, ← hQ.events]
  unfold Expr.evaluate
  obtain ⟨v, w', d, hw, hd, hQ⟩ | ⟨f, _, w', d, hw, hd, rfl, hQ⟩ := hagree.cases
  · rw [hw, hd, hleft hQ]
    rfl
  · rw [hw, hd, hleft hQ]
    rfl

end Session

end Reckon
