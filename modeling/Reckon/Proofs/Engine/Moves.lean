import Mathlib.Logic.Relation
import Reckon.Proofs.Engine.Remembering
/-
  How an engine changes. Whatever runs on an engine, with functions that perform steps in the middle
  of evaluations, and whether it fails or not, changes it by elementary moves (`World.Move`): a text
  is worked on, an evaluation begins, a result is recalled, remembered or forgotten, settings are
  revised, an operator is announced and given its functions. `Session.walks_invoke` says so for
  calls and `Session.walks_perform` for steps.

  So a property of engines that no move breaks holds after any steps (`Engine.Invariant.steps`). One
  such property is that what is remembered of texts is what would be found anew
  (`Engine.invariant_rooted`).
-/
namespace Reckon

/-! ## Moves -/

namespace World

/-- What can become of an engine at work in one move. What has happened stays. -/
inductive Move : World → World → Prop where
  /-- A text is worked on, or something happens that changes nothing. -/
  | build {w w' : World} (h : w.engine.Built w'.engine) (hevents : w.events <+: w'.events) :
    Move w w'
  | begin (w : World) (source : Option String) :
    Move w { w with engine := w.engine.beginEvaluation source }
  | reuse (w : World) (expr : Expr) :
    Move w { w with engine := (Session.recallResult expr w.engine).2 }
  | remember (w : World) (expr : Expr) (v : Value) :
    Move w { w with engine :=
      { w.engine with results := w.engine.results.set expr.bare v } }
  | forget (w : World) : Move w { w with engine := w.engine.clearCaches }
  | revise {w w' : World} {s : Step} {a : Aim} (ha : s.aim? = some a)
    (hr : s.revise w.engine.tables = .ok w'.engine.tables) (h : w.engine.ChangedIn a w'.engine)
    (hevents : w.events <+: w'.events) : Move w w'
  | announce {w : World} {events : List Event} (name : String) (binary unary : Option Level)
    (isRight : Bool) (hevents : w.events <+: events) :
    Move w ⟨w.engine.announce name binary unary isRight, events⟩
  | extend {w : World} {events : List Event} {name : String} {binary unary : Option Function}
    {o : OperatorFunctions}
    (ho : w.engine.tables.operatorFunctions.extend name binary unary = .ok o)
    (hevents : w.events <+: events) : Move w ⟨(w.engine.setOperatorFunctions o).engine, events⟩

/-- What can become of an engine at work. -/
abbrev Path : World → World → Prop := Relation.ReflTransGen Move

variable {w w' : World}

theorem Move.events (h : w.Move w') : w.events <+: w'.events := by
  cases h with
  | build _ hevents => exact hevents
  | begin | reuse | remember | forget => exact List.prefix_rfl
  | revise _ _ _ hevents => exact hevents
  | announce _ _ _ _ hevents => exact hevents
  | extend _ hevents => exact hevents

/-- A property that no move breaks is not broken. -/
theorem Path.keeps {P : World → Prop} (hmove : ∀ {w w'}, Move w w' → P w → P w') (h : w.Path w')
    (hw : P w) : P w' := by
  induction h with
  | refl => exact hw
  | tail _ h ih => exact hmove h ih

theorem Path.events (h : w.Path w') : w.events <+: w'.events :=
  h.keeps (P := fun w' => w.events <+: w'.events) (fun hmove hw => hw.trans hmove.events)
    List.prefix_rfl

end World

/-! ## Invariants -/

namespace Engine

/-- A property that no use of an engine breaks. -/
structure Invariant (P : Engine → Prop) : Prop where
  move : ∀ {w w' : World}, w.Move w' → P w.engine → P w'.engine
  rest : ∀ {e}, P e → P e.rest

theorem Rooted.announce {e : Engine} (h : e.Rooted) (name : String) (binary unary : Option Level)
    (isRight : Bool) : (e.announce name binary unary isRight).Rooted :=
  (h.changedIn (e.changedIn_setOperators _)).changedIn (changedIn_setPrecedence _ _)

theorem invariant_rooted : Invariant Rooted where
  move := by
    intro w w' hmove h
    cases hmove with
    | build hbuilt => exact hbuilt.rooted
    | begin | reuse | remember => exact ⟨h.tokens, h.trees⟩
    | forget => exact .clearCaches _
    | revise _ _ hchanged => exact h.changedIn hchanged
    | announce => exact h.announce _ _ _ _
    | extend => exact h.changedIn (changedIn_setOperatorFunctions _ _)
  rest h := ⟨h.tokens, h.trees⟩

/-- A property of settings is an invariant if the steps that change settings keep it, and so do the
two parts of a new operator. -/
theorem invariant_tables {I : Tables → Prop}
    (hrevise : ∀ {s : Step} {a t t'}, s.aim? = some a → s.revise t = .ok t' → I t → I t')
    (hannounce : ∀ {t} (name : String) (binary unary : Option Level) (isRight : Bool), I t →
      I (t.announce name binary unary isRight))
    (hextend : ∀ {t o} {name : String} {binary unary : Option Function},
      t.operatorFunctions.extend name binary unary = .ok o → I t →
      I { t with operatorFunctions := o }) :
    Invariant fun e => I e.tables where
  move := by
    intro w w' hmove h
    cases hmove with
    | build hbuilt =>
      rw [hbuilt.same.tables]
      exact h
    | begin | reuse | remember | forget => exact h
    | revise ha hr => exact hrevise ha hr h
    | announce => exact hannounce _ _ _ _ h
    | extend ho => exact hextend ho h
  rest h := h

end Engine

/-! ## Walks -/

namespace Session

variable {α β : Type}

/-- A computation that changes an engine by moves, whatever it comes to. -/
def Walks (m : Run α) : Prop := ∀ w : World, w.engine.Rooted → w.Path (left (m w))

theorem walks_pure (a : α) : Walks (pure a) := fun _ _ => .refl

theorem walks_fault (f : Fault) : Walks (fault f : Run α) := fun _ _ => .refl

theorem walks_update {f : Engine → Engine}
    (hf : ∀ w : World, w.Move { w with engine := f w.engine }) : Walks (update f) :=
  fun w _ => .single (hf w)

theorem walks_get {k : World → Run α} (hk : ∀ w, Walks (k w)) : Walks (get >>= k) :=
  fun w h => hk w w h

theorem Walks.keeps {m : Run α} (hm : Walks m) {w₀ w : World} (h₀ : w₀.engine.Rooted)
    (hpath : w₀.Path w) : w₀.Path (left (m w)) :=
  hpath.trans (hm w (hpath.keeps Engine.invariant_rooted.move h₀))

theorem Walks.bind {m : Run α} {k : α → Run β} (hm : Walks m) (hk : ∀ a, Walks (k a)) :
    Walks (m >>= k) := by
  intro w h
  have hpath := hm w h
  cases hrun : m w with
  | error f w' =>
    rw [hrun] at hpath
    rw [bind_of_eq_error hrun]
    exact hpath
  | ok a w' =>
    rw [hrun] at hpath
    rw [bind_of_eq_ok hrun]
    exact (hk a).keeps h hpath

/-- Working on a text is a move. -/
theorem walks_of_lands {m : Run α} {r : World → Except Failure α}
    (h : ∀ w, w.engine.Rooted → Lands Engine.Built m w (r w)) : Walks m := by
  intro w hw
  obtain ⟨w', hbuilt, hevents, hrun⟩ := h w hw
  rw [hrun, left_outcome]
  exact .single (.build hbuilt hevents)

theorem walks_emit (event : Event) : Walks (emit event) :=
  walks_of_lands fun _ h => lands_emit h.built event

/-! ### Texts -/

/-- A computation that can only fail, at once. -/
def Stuck (m : Run α) : Prop := ∀ w, ∃ f, m w = .error f w

theorem stuck_fault (f : Fault) : Stuck (fault f : Run α) := fun _ => ⟨_, rfl⟩

theorem Stuck.bind {m : Run α} (h : Stuck m) (k : α → Run β) : Stuck (m >>= k) := by
  intro w
  obtain ⟨f, hrun⟩ := h w
  exact ⟨f, bind_of_eq_error hrun⟩

theorem Stuck.walks {m : Run α} (h : Stuck m) : Walks m := by
  intro w _
  obtain ⟨f, hrun⟩ := h w
  rw [hrun]
  exact .refl

/-- A computation that can only fail with a bare fault, at once. -/
def Refused (m : Run α) : Prop := ∀ w, ∃ f, m w = .error (.fault f) w

theorem Refused.stuck {m : Run α} (h : Refused m) : Stuck m := by
  intro w
  obtain ⟨f, hrun⟩ := h w
  exact ⟨_, hrun⟩

theorem refused_fault (f : Fault) : Refused (fault f : Run α) := fun _ => ⟨f, rfl⟩

theorem Refused.bind {m : Run α} (h : Refused m) (k : α → Run β) : Refused (m >>= k) := by
  intro w
  obtain ⟨f, hrun⟩ := h w
  exact ⟨f, bind_of_eq_error hrun⟩

theorem refused_scan {d : Datum} (hd : sourceOf d = none) : Refused (scan d) := by
  cases d with
  | str text => exact absurd hd (by simp [sourceOf])
  | none | bool | int | float | list | dict => exact refused_fault _

theorem refused_consult {ν : Type} {store : String → Engine → Option ν × Engine}
    {found : ν → Run α} {otherwise : Run α} {d : Datum} (hd : sourceOf d = none)
    (h : Refused otherwise) : Refused (consult store d found otherwise) := by
  unfold consult
  split
  · exact refused_fault _
  · cases d with
    | str text => exact absurd hd (by simp [sourceOf])
    | none | bool | int | float | list | dict => exact h

/-- Data that are no text have no tokens. -/
theorem refused_tokenize {d : Datum} (hd : sourceOf d = none) : Refused (tokenize d) := by
  intro w
  show ∃ f, (if w.engine.caching = true then consult recallTokens d pure (scan d) else scan d) w
    = .error (.fault f) w
  split
  · exact refused_consult hd (refused_scan hd) w
  · exact refused_scan hd w

theorem refused_tree {d : Datum} (hd : sourceOf d = none) : Refused (tree d) := by
  have hbuild : Refused (buildTree d) := (refused_tokenize hd).bind _
  intro w
  show ∃ f, (if w.engine.caching = true then consult recallTree d pure (buildTree d)
    else buildTree d) w = .error (.fault f) w
  split
  · exact refused_consult hd hbuild w
  · exact hbuild w

theorem stuck_tokenize {d : Datum} (hd : sourceOf d = none) : Stuck (tokenize d) :=
  (refused_tokenize hd).stuck

theorem stuck_tree {d : Datum} (hd : sourceOf d = none) : Stuck (tree d) := (refused_tree hd).stuck

theorem walks_tokenize (d : Datum) : Walks (tokenize d) := by
  cases d with
  | str text => exact walks_of_lands fun _ h => tokenize_lands h text
  | none | bool | int | float | list | dict => exact (stuck_tokenize rfl).walks

theorem walks_parse (ts : List Token) (source : Option String) : Walks (parse ts source) :=
  walks_of_lands fun _ h => parse_lands h ts source

theorem walks_tree (d : Datum) : Walks (tree d) := by
  cases d with
  | str text => exact walks_of_lands fun _ h => tree_lands h text
  | none | bool | int | float | list | dict => exact (stuck_tree rfl).walks

/-! ### Evaluations -/

section

variable {invoke : Function → List Value → Run Value}

theorem walks_call (hinvoke : ∀ f args, Walks (invoke f args)) (f : Function) (args : List Value) :
    Walks ((host invoke).call f args) := (walks_emit _).bind fun _ => hinvoke f args

theorem walks_eval (hinvoke : ∀ f args, Walks (invoke f args)) (expr : Expr) :
    Walks (Evaluation.eval (host invoke) expr) := fun w h =>
  Evaluation.eval_keeps (P := w.Path) (fun f args _ => (walks_call hinvoke f args).keeps h) expr
    .refl

theorem walks_compute (hinvoke : ∀ f args, Walks (invoke f args)) (expr : Expr)
    (source : Option String) : Walks (compute invoke expr source) := by
  refine (walks_update fun w => .begin w source).bind fun _ => ?_
  refine (walks_eval hinvoke expr).bind fun v => walks_get fun w => ?_
  dsimp only
  split
  · exact (walks_update fun w => .remember w expr v).bind fun _ => walks_pure v
  · exact walks_pure v

theorem walks_evaluate (hinvoke : ∀ f args, Walks (invoke f args)) (expr : Expr)
    (source : Option String) : Walks (evaluate invoke expr source) := by
  intro w h
  obtain heq | ⟨-, v, engine, hr, heq⟩ := evaluate_cases invoke expr source w
  · rw [heq]
    exact walks_compute hinvoke expr source w h
  · have hmove : w.Move { w with engine := (recallResult expr w.engine).2 } := .reuse w expr
    rw [hr] at hmove
    rw [heq]
    exact .single hmove

theorem walks_solve (hinvoke : ∀ f args, Walks (invoke f args)) (d : Datum) :
    Walks (solve invoke d) :=
  (walks_tree d).bind fun expr => walks_evaluate hinvoke expr _

/-! ### Steps -/

theorem walks_addOperator (operator : Datum) (binary : Option Function) (binaryLevel : Datum)
    (unary : Option Function) (unaryLevel : Datum) (isRight : Bool) :
    Walks (addOperator operator binary binaryLevel unary unaryLevel isRight) := by
  intro w _
  cases haccept : accept operator binary binaryLevel unary unaryLevel with
  | error f =>
    rw [addOperator_refused haccept]
    exact .refl
  | ok name =>
    have hannounced : w.Path ⟨w.engine.announce name (binary.map fun _ => binaryLevel)
        (unary.map fun _ => unaryLevel) isRight, w.events⟩ :=
      .single (.announce name _ _ isRight List.prefix_rfl)
    cases ho : w.engine.tables.operatorFunctions.extend name binary unary with
    | error f =>
      obtain ⟨events, hevents, hrun⟩ := addOperator_announced haccept isRight ho
      rw [hrun]
      exact .single (.announce name _ _ isRight hevents)
    | ok o =>
      obtain ⟨events, hevents, hrun⟩ := addOperator_added haccept isRight ho
      rw [hrun]
      exact hannounced.tail (.extend ho hevents)

/-- A step with an aim is one move, or none. -/
theorem walks_revise {s : Step} {a : Aim} (ha : s.aim? = some a) : Walks (perform invoke s) := by
  intro w _
  have hmakes := makes_revise invoke ha w
  cases hr : s.revise w.engine.tables with
  | ok t =>
    rw [hr] at hmakes
    obtain ⟨w', hrun, rfl, hchanged, hevents⟩ := hmakes
    rw [hrun]
    exact .single (.revise ha hr hchanged hevents)
  | error f =>
    rw [hr] at hmakes
    rw [show perform invoke s w = .error (.fault f) w from hmakes]
    exact .refl

theorem walks_perform (hinvoke : ∀ f args, Walks (invoke f args)) (s : Step) :
    Walks (perform invoke s) := by
  cases ha : s.aim? with
  | some a => exact walks_revise ha
  | none =>
    match s with
    | .solve d => exact (walks_solve hinvoke d).bind fun _ => walks_pure _
    | .tokenize d => exact (walks_tokenize d).bind fun _ => walks_pure _
    | .parse none _ => exact walks_fault _
    | .parse (some ts) source => exact (walks_parse ts source).bind fun _ => walks_pure _
    | .parseText d source =>
      exact (walks_tokenize d).bind fun ts => (walks_parse ts source).bind fun _ => walks_pure _
    | .evaluate expr source =>
      exact (walks_evaluate hinvoke expr source).bind fun _ => walks_pure _
    | .addOperator operator binary binaryLevel unary unaryLevel isRight =>
      refine (walks_addOperator operator binary binaryLevel unary unaryLevel isRight).bind ?_
      exact fun _ => walks_pure _
    | .clearCaches =>
      exact (walks_update fun w => .forget w).bind fun _ => walks_pure _
    | .snapshot => exact walks_get fun _ => walks_pure _
    | .invalid cause => exact walks_fault cause

theorem walks_performAll {run : Step → Run Answer} (hrun : ∀ s, Walks (run s)) (ss : List Step)
    (last : Answer) : Walks (performAll run ss last) := by
  induction ss generalizing last with
  | nil => exact walks_pure last
  | cons s ss ih => exact (hrun s).bind ih

end

theorem walks_invoke_quiet {f : Function} (hf : f.Quiet) (depth : Nat) (args : List Value) :
    Walks (invoke depth f args) := by
  intro w _
  rw [invoke_quiet hf, left_outcome]

/-- Calls change an engine by moves, however deep the steps in them are nested. -/
theorem walks_invoke (depth : Nat) (f : Function) (args : List Value) :
    Walks (invoke depth f args) := by
  induction depth generalizing f args with
  | zero =>
    obtain hf | ⟨steps, rfl⟩ := f.quiet_or_script
    · exact walks_invoke_quiet hf 0 args
    · exact walks_fault _
  | succ depth ih =>
    obtain hf | ⟨steps, rfl⟩ := f.quiet_or_script
    · exact walks_invoke_quiet hf _ args
    · refine (walks_performAll (walks_perform ih) steps .nothing).bind fun _ => ?_
      exact walks_pure _

theorem walks_run (s : Step) : Walks (run s) := walks_perform (walks_invoke maxNesting) s

end Session

/-! ## Steps from outside -/

namespace Engine

variable {e : Engine} {s : Step}

theorem step_of_ok {a : Answer} {w : World} (h : Session.run s ⟨e, []⟩ = .ok a w) :
    e.step s = (⟨.ok a, w.events⟩, w.engine.rest) := by
  unfold step
  rw [h]

theorem step_of_error {f : Failure} {w : World} (h : Session.run s ⟨e, []⟩ = .error f w) :
    e.step s = (⟨.error f, w.events⟩, w.engine.rest) := by
  unfold step
  rw [h]

/-- A step that fails has a run that fails. -/
theorem exists_run_of_error {f : Failure} (h : (e.step s).1.result = .error f) :
    ∃ w, Session.run s ⟨e, []⟩ = .error f w := by
  cases hrun : Session.run s ⟨e, []⟩ with
  | ok a w =>
    rw [step_of_ok hrun] at h
    exact absurd h (by simp)
  | error f' w =>
    rw [step_of_error hrun] at h
    rw [Except.error.inj h]
    exact ⟨w, rfl⟩

/-- A step leaves the engine that its run leaves, at rest. -/
theorem step_eq_left (e : Engine) (s : Step) :
    (e.step s).2 = (left (Session.run s ⟨e, []⟩)).engine.rest
      ∧ (e.step s).1.events = (left (Session.run s ⟨e, []⟩)).events := by
  cases hrun : Session.run s ⟨e, []⟩ with
  | ok a w =>
    rw [step_of_ok hrun]
    exact ⟨rfl, rfl⟩
  | error f w =>
    rw [step_of_error hrun]
    exact ⟨rfl, rfl⟩

theorem evaluating_removeVariable {name : String} {c : Change}
    (hc : e.removeVariable name = .ok c) : c.engine.evaluating = e.evaluating := by
  unfold removeVariable at hc
  split at hc
  · rw [← Except.ok.inj hc]
    rfl
  · exact absurd hc (by simp)

theorem evaluating_removeFunction {name : String} {c : Change}
    (hc : e.removeFunction name = .ok c) : c.engine.evaluating = e.evaluating := by
  unfold removeFunction at hc
  split at hc
  · rw [← Except.ok.inj hc]
    rfl
  · exact absurd hc (by simp)

theorem rest_eq_self (h : e.evaluating = none) : e.rest = e := by
  unfold rest
  rw [← h]

theorem evaluating_step (e : Engine) (s : Step) : (e.step s).2.evaluating = none := by
  rw [(e.step_eq_left s).1]
  rfl

/-- Between steps no evaluation is in progress. -/
theorem evaluating_steps (h : e.evaluating = none) (ss : List Step) :
    (e.steps ss).2.evaluating = none := by
  induction ss generalizing e with
  | nil => exact h
  | cons s ss ih => exact ih (e.evaluating_step s)

namespace Invariant

variable {P : Engine → Prop}

theorem step (hP : Invariant P) (hrooted : e.Rooted) (h : P e) (s : Step) : P (e.step s).2 := by
  rw [(e.step_eq_left s).1]
  exact hP.rest ((Session.walks_run s ⟨e, []⟩ hrooted).keeps (P := fun w => P w.engine) hP.move h)

/-- An invariant that an engine starts with holds after any steps. -/
theorem steps (hP : Invariant P) (hrooted : e.Rooted) (h : P e) (ss : List Step) :
    P (e.steps ss).2 := by
  induction ss generalizing e with
  | nil => exact h
  | cons s ss ih => exact ih (invariant_rooted.step hrooted hrooted s) (hP.step hrooted h s)

end Invariant

/-! ## New engines -/

variable {limits : Limits} {caching : Bool} {cacheSize operators : Datum}
  {levels : Precedence.Source} {bindings : List (String × Value)}
  {operatorFunctions : OperatorSource} {functions : List (String × Function)} {c : Change}

/-- A new engine has settings as they are read. It remembers nothing, and no evaluation is in
progress. -/
theorem of_create (hc : create limits caching cacheSize operators levels bindings operatorFunctions
    functions = .ok c) :
    Tables.read operators levels bindings operatorFunctions functions = .ok c.engine.tables
      ∧ c.engine.evaluating = none ∧ c.engine.clearCaches = c.engine := by
  obtain ⟨size, tables, -, htables, rfl⟩ := create_eq_ok_iff.1 hc
  exact ⟨htables, rfl, rfl⟩

theorem rooted_create (hc : create limits caching cacheSize operators levels bindings
    operatorFunctions functions = .ok c) : c.engine.Rooted := by
  rw [← (of_create hc).2.2]
  exact .clearCaches _

end Engine

end Reckon
