import Reckon.Proofs.Engine.Moves
/-
  The text that errors show is that of the evaluation in progress (`Engine.text`). It changes when
  an evaluation begins, and never else. Whatever evaluates nothing leaves it alone
  (`Session.Steady`), and so does a result that is recalled or remembered. Steps that change
  settings leave it alone, too (`Session.steady_perform`).
-/
namespace Reckon

/-! ## Texts -/

namespace Engine

/-- The text of the evaluation in progress. -/
def text (e : Engine) : Option String := e.evaluating.bind (·.source)

theorem scope_source (e : Engine) : e.scope.source = e.text := by
  unfold scope text
  cases e.evaluating with
  | none => rfl
  | some v => rfl

theorem text_keepVariables (e : Engine) : e.keepVariables.text = e.text := by
  unfold keepVariables text
  cases e.evaluating with
  | none => rfl
  | some v => rfl

theorem text_keepFunctions (e : Engine) : e.keepFunctions.text = e.text := by
  unfold keepFunctions text
  cases e.evaluating with
  | none => rfl
  | some v => rfl

theorem text_removeVariable {e : Engine} {name : String} {c : Change}
    (hc : e.removeVariable name = .ok c) : c.engine.text = e.text := by
  rw [text, evaluating_removeVariable hc, text]

theorem text_removeFunction {e : Engine} {name : String} {c : Change}
    (hc : e.removeFunction name = .ok c) : c.engine.text = e.text := by
  rw [text, evaluating_removeFunction hc, text]

end Engine

/-- Whether a step evaluates an expression. -/
def Step.evaluates : Step → Bool
  | .solve _ | .evaluate .. => true
  | _ => false

namespace Session

/-- What the results know of a tree, and the engine that was asked. -/
def recalled? (expr : Expr) (e : Engine) : Option (Value × Engine) :=
  if e.caching then
    match recallResult expr e with
    | (some v, e) => some (v, e)
    | (none, _) => none
  else none

theorem evaluate_eq (inner : Function → List Value → Run Value) (expr : Expr)
    (source : Option String) (w : World) :
    evaluate inner expr source w = (recalled? expr w.engine).elim (compute inner expr source w)
      fun r => .ok r.1 { w with engine := r.2 } := by
  show (if w.engine.caching = true then _ else _ : Run Value) w = _
  unfold recalled?
  by_cases hcaching : w.engine.caching = true
  · rw [if_pos hcaching, if_pos hcaching]
    rcases recallResult expr w.engine with ⟨_ | v, engine⟩
    · rfl
    · rfl
  · rw [if_neg hcaching, if_neg hcaching]
    rfl

/-- An evaluation that fails has begun. -/
theorem eval_of_evaluate_eq_error {inner : Function → List Value → Run Value} {expr : Expr}
    {source : Option String} {w w' : World} {f : Failure}
    (hrun : evaluate inner expr source w = .error f w') :
    Evaluation.eval (host inner) expr { w with engine := w.engine.beginEvaluation source }
      = .error f w' := by
  rw [evaluate_eq] at hrun
  cases hr : recalled? expr w.engine with
  | some r =>
    rw [hr] at hrun
    have hfound : EStateM.Result.ok r.1 { w with engine := r.2 } = .error f w' := hrun
    exact absurd hfound (by simp)
  | none =>
    rw [hr] at hrun
    have hcompute : compute inner expr source w = .error f w' := hrun
    cases heval : Evaluation.eval (host inner) expr
        { w with engine := w.engine.beginEvaluation source } with
    | ok v w₁ =>
      rw [compute_of_eq_ok heval] at hcompute
      exact absurd hcompute (by simp)
    | error f' w₁ => exact (compute_of_eq_error heval).symm.trans hcompute

theorem text_recalled {expr : Expr} {e e' : Engine} {v : Value}
    (hr : recalled? expr e = some (v, e')) : e'.text = e.text := by
  unfold recalled? at hr
  split at hr
  · have htext : (recallResult expr e).2.text = e.text := rfl
    split at hr
    · next v' e₁ hresult =>
      rw [hresult] at htext
      rw [← (Prod.mk.inj (Option.some.inj hr)).2]
      exact htext
    · exact absurd hr (by simp)
  · exact absurd hr (by simp)

theorem text_remembering (w : World) (expr : Expr) (v : Value) :
    (remembering w expr v).engine.text = w.engine.text := by
  unfold remembering
  split
  · rfl
  · rfl

variable {α β : Type}

/-- A computation that leaves the text alone that errors show, whatever it comes to. -/
def Steady (m : Run α) : Prop := ∀ w, (left (m w)).engine.text = w.engine.text

theorem steady_pure (a : α) : Steady (pure a) := fun _ => rfl

theorem steady_fault (f : Fault) : Steady (fault f : Run α) := fun _ => rfl

theorem steady_throw (f : Failure) : Steady (throw f : Run α) := fun _ => rfl

theorem steady_emit (event : Event) : Steady (emit event) := fun _ => rfl

theorem steady_update {f : Engine → Engine} (hf : ∀ e, (f e).text = e.text) :
    Steady (update f) := fun w => hf w.engine

theorem steady_commit {f : Engine → Change} (hf : ∀ e, (f e).engine.text = e.text) :
    Steady (commit f) := fun w => hf w.engine

theorem steady_lift (r : Except Fault α) : Steady (lift r) := by
  cases r with
  | ok a => exact steady_pure a
  | error f => exact steady_fault f

theorem steady_get {k : World → Run α} (hk : ∀ w, Steady (k w)) : Steady (get >>= k) :=
  fun w => hk w w

theorem steady_ite {c : Prop} [Decidable c] {m m' : Run α} (hm : Steady m) (hm' : Steady m') :
    Steady (if c then m else m') := by
  split
  · exact hm
  · exact hm'

theorem Steady.bind {m : Run α} {k : α → Run β} (hm : Steady m) (hk : ∀ a, Steady (k a)) :
    Steady (m >>= k) := by
  intro w
  have htext := hm w
  cases hrun : m w with
  | ok a w' =>
    rw [hrun] at htext
    rw [bind_of_eq_ok hrun]
    exact (hk a w').trans htext
  | error f w' =>
    rw [hrun] at htext
    rw [bind_of_eq_error hrun]
    exact htext

theorem steady_consult {ν : Type} {store : String → Engine → Option ν × Engine}
    (hstore : ∀ text e, (store text e).2.text = e.text) {found : ν → Run α} {otherwise : Run α}
    (hfound : ∀ v, Steady (found v)) (hotherwise : Steady otherwise) (d : Datum) :
    Steady (consult store d found otherwise) := by
  unfold consult
  split
  · exact steady_fault _
  · cases d with
    | str text =>
      intro w
      have htext := hstore text w.engine
      rcases hs : store text w.engine with ⟨_ | v, e⟩
      · dsimp only
        rw [hs]
        exact hotherwise w
      · rw [hs] at htext
        dsimp only
        rw [hs]
        exact (hfound v _).trans htext
    | none | bool | int | float | list | dict => exact hotherwise

theorem steady_scan (d : Datum) : Steady (scan d) := by
  cases d with
  | str text =>
    refine steady_get fun w => ?_
    dsimp only
    cases Token.ofText w.engine.trie w.engine.limits text with
    | error f => exact steady_throw f
    | ok ts =>
      refine (steady_emit _).bind fun _ => steady_ite ?_ (steady_pure ts)
      exact (steady_update fun _ => rfl).bind fun _ => steady_pure ts
  | none | bool | int | float | list | dict => exact steady_fault _

theorem steady_tokenize (d : Datum) : Steady (tokenize d) :=
  steady_get fun _ =>
    steady_ite (steady_consult (fun _ _ => rfl) steady_pure (steady_scan d) d) (steady_scan d)

theorem steady_parse (ts : List Token) (source : Option String) : Steady (parse ts source) := by
  refine steady_get fun w => ?_
  dsimp only
  rcases Parser.parse w.engine.tables.precedence w.engine.limits source ts with ⟨f | expr, cursor⟩
  · exact steady_throw f
  · exact (steady_emit _).bind fun _ => steady_pure expr

theorem steady_buildTree (d : Datum) : Steady (buildTree d) := by
  refine (steady_tokenize d).bind fun ts => (steady_parse ts _).bind fun expr => ?_
  refine steady_get fun w => steady_ite ?_ (steady_pure expr)
  cases d with
  | str text => exact (steady_update fun _ => rfl).bind fun _ => steady_pure expr
  | none | bool | int | float | list | dict => exact steady_pure expr

theorem steady_tree (d : Datum) : Steady (tree d) :=
  steady_get fun _ =>
    steady_ite (steady_consult (fun _ _ => rfl) steady_pure (steady_buildTree d) d)
      (steady_buildTree d)

theorem steady_entries (missing : Fault) (es : Option (List (String × α))) :
    Steady (entries missing es) := by
  cases es with
  | none => exact steady_fault missing
  | some es => exact steady_pure es

theorem steady_functionEntries (functions : Option (List (String × Function))) :
    Steady (functionEntries functions) :=
  (steady_entries _ _).bind fun fs => (steady_lift _).bind fun _ => steady_pure fs

theorem steady_remove {f : Engine → Except Fault Change}
    (hf : ∀ {e c}, f e = .ok c → c.engine.text = e.text) : Steady (remove f) := by
  intro w
  show (left ((lift (f w.engine) >>= fun c => commit fun _ => c) w)).engine.text = _
  cases hc : f w.engine with
  | error fault => rfl
  | ok c => exact hf hc

theorem steady_addOperator (operator : Datum) (binary : Option Function) (binaryLevel : Datum)
    (unary : Option Function) (unaryLevel : Datum) (isRight : Bool) :
    Steady (addOperator operator binary binaryLevel unary unaryLevel isRight) := by
  refine (steady_lift _).bind fun _ => (steady_lift _).bind fun name => steady_get fun w => ?_
  refine (steady_commit fun _ => rfl).bind fun _ => (steady_commit fun _ => rfl).bind fun _ => ?_
  exact (steady_lift _).bind fun o => steady_commit fun _ => rfl

/-- A step that evaluates nothing leaves the text alone. -/
theorem steady_perform (inner : Function → List Value → Run Value) {s : Step}
    (hs : s.evaluates = false) : Steady (perform inner s) := by
  have hnothing : Steady (pure Answer.nothing) := steady_pure _
  match s with
  | .solve _ | .evaluate .. => exact absurd hs (by simp [Step.evaluates])
  | .tokenize d => exact (steady_tokenize d).bind fun ts => steady_pure _
  | .parse none _ => exact steady_fault _
  | .parse (some ts) source => exact (steady_parse ts source).bind fun _ => steady_pure _
  | .parseText d source =>
    exact (steady_tokenize d).bind fun ts => (steady_parse ts source).bind fun _ => steady_pure _
  | .setOperators _ | .setPrecedence _ | .setOperatorFunctions _ =>
    exact (steady_lift _).bind fun _ => (steady_commit fun _ => rfl).bind fun _ => hnothing
  | .addOperator operator binary binaryLevel unary unaryLevel isRight =>
    exact (steady_addOperator operator binary binaryLevel unary unaryLevel isRight).bind fun _ =>
      hnothing
  | .addVariable .. => exact (steady_commit fun _ => rfl).bind fun _ => hnothing
  | .addVariables _ =>
    exact (steady_entries _ _).bind fun _ => (steady_commit fun _ => rfl).bind fun _ => hnothing
  | .setVariables _ =>
    exact (steady_entries _ _).bind fun _ =>
      (steady_commit Engine.text_keepVariables).bind fun _ => hnothing
  | .removeVariable _ =>
    exact (steady_remove Engine.text_removeVariable).bind fun _ => hnothing
  | .addFunction .. =>
    exact (steady_lift _).bind fun _ => (steady_commit fun _ => rfl).bind fun _ => hnothing
  | .addFunctions _ =>
    exact (steady_functionEntries _).bind fun _ => (steady_commit fun _ => rfl).bind fun _ =>
      hnothing
  | .setFunctions _ =>
    exact (steady_functionEntries _).bind fun _ =>
      (steady_commit Engine.text_keepFunctions).bind fun _ => hnothing
  | .removeFunction _ =>
    exact (steady_remove Engine.text_removeFunction).bind fun _ => hnothing
  | .reset .. =>
    refine (steady_lift _).bind fun _ => (steady_commit fun e => ?_).bind fun _ => hnothing
    exact (Engine.text_keepFunctions _).trans e.text_keepVariables
  | .clearCaches => exact (steady_update fun _ => rfl).bind fun _ => hnothing
  | .snapshot => exact steady_get fun _ => steady_pure _
  | .invalid cause => exact steady_fault cause

end Session

end Reckon
