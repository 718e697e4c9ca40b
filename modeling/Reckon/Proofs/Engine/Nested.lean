import Reckon.Proofs.Engine.Settings
/-
  Settings under functions that perform steps. A function that an expression calls may change the
  settings in the middle of the evaluation, and bring in functions that do so when they are called
  later. Where each function of a kind performs permitted steps only, and brings in functions of the
  kind only (`Function.Closed`), a property of settings that the permitted steps keep holds after
  any of them, however deep they are nested (`Engine.Upholds.steps`).

  `Settings` shows the same of quiet functions, with all that a step from outside can do to the
  settings. Here nothing is said about a single step: what it does depends on the functions that it
  happens to call. The invariant (`Engine.Upholds`) must also speak of an evaluation in progress,
  which goes on calling functions that are no longer in force.
-/
namespace Reckon

/-! ## Kinds of functions -/

/-- A kind of functions with those that perform no steps. The others perform permitted steps only,
which bring in functions of the kind only. -/
structure Function.Closed (Q : Step → Prop) (P : Function → Prop) : Prop where
  native (run : List Value → Except Failure Value) : P (.native run)
  script {steps : List Step} : P (.script steps) → ∀ s ∈ steps, Q s ∧ s.Brings P

/-- An evaluation that calls functions of a kind, as far as it does not look at those in force. -/
structure Evaluating.Every (P : Function → Prop) (v : Evaluating) : Prop where
  operatorFunctions : v.operatorFunctions.Every P
  functions : ∀ t ∈ v.functions, Table.Every P t

namespace Engine

variable {P : Function → Prop} {I : Tables → Prop} {e e' : Engine}

/-- An engine whose settings have a property, with functions of a kind only, in force or still
called by the evaluation in progress. -/
structure Upholds (P : Function → Prop) (I : Tables → Prop) (e : Engine) : Prop where
  rooted : e.Rooted
  every : e.tables.Every P
  holds : I e.tables
  during : ∀ v ∈ e.evaluating, v.Every P

/-- The functions that an evaluation may call are of the kind. -/
theorem Upholds.scope (hP : ∀ run, P (.native run)) (h : e.Upholds P I) {f : Function}
    (hf : e.scope.Has f) : P f := by
  unfold Engine.scope at hf
  cases hv : e.evaluating with
  | none =>
    rw [hv] at hf
    exact h.every.scope hP none hf
  | some v =>
    rw [hv] at hf
    have hduring := h.during v hv
    -- the settings that the evaluation in progress looks at
    let t : Tables := ⟨e.tables.operators, e.tables.precedence, v.operatorFunctions,
      v.bindings.getD e.tables.bindings, v.functions.getD e.tables.functions⟩
    have hevery : t.Every P := by
      refine ⟨hduring.operatorFunctions, ?_⟩
      show Table.Every P (v.functions.getD e.tables.functions)
      cases hfs : v.functions with
      | none => exact h.every.functions
      | some fs => exact hduring.functions fs hfs
    exact hevery.scope hP v.source hf

theorem Upholds.built (h : e.Upholds P I) (hb : e.Built e') : e'.Upholds P I := by
  refine ⟨hb.rooted, ?_, ?_, ?_⟩
  · rw [hb.same.tables]
    exact h.every
  · rw [hb.same.tables]
    exact h.holds
  · rw [hb.evaluating]
    exact h.during

/-- An evaluation begins with the operator functions in force. -/
theorem Upholds.begin (h : e.Upholds P I) (source : Option String) :
    (e.beginEvaluation source).Upholds P I where
  rooted := ⟨h.rooted.tokens, h.rooted.trees⟩
  every := h.every
  holds := h.holds
  during := by
    intro v hv
    rw [← Option.some.inj hv]
    exact ⟨h.every.operatorFunctions, by simp⟩

theorem Upholds.setResults (h : e.Upholds P I) (results : Cache Expr Value) :
    Upholds P I { e with results } :=
  ⟨⟨h.rooted.tokens, h.rooted.trees⟩, h.every, h.holds, h.during⟩

theorem Upholds.rest (h : e.Upholds P I) : e.rest.Upholds P I :=
  ⟨⟨h.rooted.tokens, h.rooted.trees⟩, h.every, h.holds, by simp [Engine.rest]⟩

/-! ### What an evaluation in progress keeps -/

theorem during_keepVariables (h : ∀ v ∈ e.evaluating, v.Every P) :
    ∀ v ∈ e.keepVariables.evaluating, v.Every P := by
  intro v hv
  obtain ⟨v', hv', rfl⟩ := Option.map_eq_some_iff.1 hv
  exact ⟨(h v' hv').operatorFunctions, (h v' hv').functions⟩

/-- Functions that are about to be replaced are of the kind. -/
theorem during_keepFunctions (hfunctions : Table.Every P e.tables.functions)
    (h : ∀ v ∈ e.evaluating, v.Every P) : ∀ v ∈ e.keepFunctions.evaluating, v.Every P := by
  intro v hv
  obtain ⟨v', hv', rfl⟩ := Option.map_eq_some_iff.1 hv
  refine ⟨(h v' hv').operatorFunctions, fun t ht => ?_⟩
  rw [← Option.some.inj ht]
  cases hfs : v'.functions with
  | none => exact hfunctions
  | some fs => exact (h v' hv').functions fs hfs

end Engine

namespace Session

open Engine (Upholds)

variable {α β : Type} {P : Function → Prop} {I : Tables → Prop} {J : Engine → Prop}
  {Q : Step → Prop} {inner : Function → List Value → Run Value} {w : World}

/-! ## Computations -/

/-- A computation that keeps a property of the engine, whatever it comes to. -/
def Guards (J : Engine → Prop) (m : Run α) : Prop := ∀ w, J w.engine → J (left (m w)).engine

theorem guards_pure (a : α) : Guards J (pure a) := fun _ h => h

theorem guards_fault (f : Fault) : Guards J (fault f : Run α) := fun _ h => h

theorem guards_get {k : World → Run α} (hk : ∀ w, Guards J (k w)) : Guards J (get >>= k) :=
  fun w h => hk w w h

theorem guards_update {f : Engine → Engine} (hf : ∀ {e}, J e → J (f e)) : Guards J (update f) :=
  fun _ h => hf h

theorem Guards.bind {m : Run α} {k : α → Run β} (hm : Guards J m) (hk : ∀ a, Guards J (k a)) :
    Guards J (m >>= k) := by
  intro w h
  have hleft := hm w h
  cases hrun : m w with
  | ok a w' =>
    rw [hrun] at hleft
    rw [bind_of_eq_ok hrun]
    exact hk a w' hleft
  | error f w' =>
    rw [hrun] at hleft
    rw [bind_of_eq_error hrun]
    exact hleft

theorem Stuck.guards {m : Run α} (h : Stuck m) : Guards J m := by
  intro w hw
  obtain ⟨f, hrun⟩ := h w
  rw [hrun]
  exact hw

/-! ### Texts -/

theorem guards_of_lands {m : Run α} {r : World → Except Failure α}
    (h : ∀ w, w.engine.Rooted → Lands Engine.Built m w (r w)) : Guards (Upholds P I) m := by
  intro w hw
  obtain ⟨w', hbuilt, -, hrun⟩ := h w hw.rooted
  rw [hrun, left_outcome]
  exact hw.built hbuilt

theorem guards_tokenize (d : Datum) : Guards (Upholds P I) (tokenize d) := by
  obtain ⟨text, rfl⟩ | hd := text_or_stuck d
  · exact guards_of_lands fun _ h => tokenize_lands h text
  · exact (stuck_tokenize hd).guards

theorem guards_tree (d : Datum) : Guards (Upholds P I) (tree d) := by
  obtain ⟨text, rfl⟩ | hd := text_or_stuck d
  · exact guards_of_lands fun _ h => tree_lands h text
  · exact (stuck_tree hd).guards

theorem guards_parse (ts : List Token) (source : Option String) :
    Guards (Upholds P I) (parse ts source) := guards_of_lands fun _ h => parse_lands h ts source

/-! ### Evaluations -/

/-- Only functions in the scope of the evaluation are called. -/
theorem guards_eval (hP : ∀ run, P (.native run))
    (hinner : ∀ f args, P f → Guards (Upholds P I) (inner f args)) (expr : Expr) :
    Guards (Upholds P I) (Evaluation.eval (host inner) expr) := by
  intro w hw
  refine Evaluation.eval_keeps_of_has (P := fun w : World => w.engine.Upholds P I) ?_ expr hw
  intro w₀ f args w' hw₀ hf hw'
  exact hinner f args (hw₀.scope hP hf) _ hw'

theorem guards_compute (hP : ∀ run, P (.native run))
    (hinner : ∀ f args, P f → Guards (Upholds P I) (inner f args)) (expr : Expr)
    (source : Option String) : Guards (Upholds P I) (compute inner expr source) := by
  refine (guards_update fun h => h.begin source).bind fun _ => ?_
  refine (guards_eval hP hinner expr).bind fun v => guards_get fun w => ?_
  dsimp only
  split
  · exact (guards_update fun h => h.setResults _).bind fun _ => guards_pure v
  · exact guards_pure v

theorem guards_evaluate (hP : ∀ run, P (.native run))
    (hinner : ∀ f args, P f → Guards (Upholds P I) (inner f args)) (expr : Expr)
    (source : Option String) : Guards (Upholds P I) (evaluate inner expr source) := by
  intro w h
  obtain heq | ⟨-, v, engine, hr, heq⟩ := evaluate_cases inner expr source w
  · rw [heq]
    exact guards_compute hP hinner expr source w h
  · have hrecalled : (recallResult expr w.engine).2.Upholds P I := h.setResults _
    rw [hr] at hrecalled
    rw [heq]
    exact hrecalled

/-! ### Steps -/

/-- A computation that looks at what it is given, and changes nothing. -/
def Still (m : Run α) : Prop := ∀ w, left (m w) = w

theorem still_lift (r : Except Fault α) : Still (lift r) := by
  cases r with
  | error f => exact fun _ => rfl
  | ok a => exact fun _ => rfl

theorem still_entries (missing : Fault) (es : Option (List (String × α))) :
    Still (entries missing es) := by
  cases es with
  | none => exact fun _ => rfl
  | some es => exact fun _ => rfl

/-- What follows begins where nothing has been changed, if it begins. -/
theorem Still.left_bind {K : World → Prop} {m : Run α} {k : α → Run β} (hm : Still m) (hw : K w)
    (hk : ∀ a, K (left (k a w))) : K (left ((m >>= k) w)) := by
  have hleft := hm w
  cases hrun : m w with
  | ok a w' =>
    rw [hrun] at hleft
    obtain rfl : w' = w := hleft
    rw [bind_of_eq_ok hrun]
    exact hk a
  | error f w' =>
    rw [hrun] at hleft
    obtain rfl : w' = w := hleft
    rw [bind_of_eq_error hrun]
    exact hw

theorem still_functionEntries (functions : Option (List (String × Function))) :
    Still (functionEntries functions) := by
  intro w
  refine (still_entries _ functions).left_bind (K := (· = w)) rfl fun fs => ?_
  exact (still_lift (Tables.checkFunctions fs)).left_bind (K := (· = w)) rfl fun _ => rfl

theorem left_remove {K : Engine → Prop} {f : Engine → Except Fault Change} (hw : K w.engine)
    (hf : ∀ c, f w.engine = .ok c → K c.engine) :
    K (left ((do remove f; pure Answer.nothing : Run Answer) w)).engine := by
  show K (left (((lift (f w.engine) >>= fun c => commit fun _ => c) >>= fun _ =>
    pure Answer.nothing : Run Answer) w)).engine
  cases hc : f w.engine with
  | error fault => exact hw
  | ok c => exact hf c hc

/-- A change of settings leaves an evaluation in progress with functions of the kind. -/
theorem during_revise {s : Step} {a : Aim} (ha : s.aim? = some a)
    (hfunctions : Table.Every P w.engine.tables.functions)
    (h : ∀ v ∈ w.engine.evaluating, v.Every P) :
    ∀ v ∈ (left (perform inner s w)).engine.evaluating, v.Every P := by
  have hbind : ∀ {α : Type} {m : Run α} {k : α → Run Answer}, Still m →
      (∀ a, ∀ v ∈ (left (k a w)).engine.evaluating, v.Every P) →
      ∀ v ∈ (left ((m >>= k) w)).engine.evaluating, v.Every P := fun hm hk =>
    hm.left_bind (K := fun w => ∀ v ∈ w.engine.evaluating, v.Every P) h hk
  match s with
  | .setOperators _ | .setPrecedence _ | .setOperatorFunctions _ | .addFunction .. =>
    exact hbind (still_lift _) fun _ => h
  | .addVariable .. => exact h
  | .addVariables _ => exact hbind (still_entries _ _) fun _ => h
  | .addFunctions _ => exact hbind (still_functionEntries _) fun _ => h
  | .setVariables _ =>
    exact hbind (still_entries _ _) fun _ => Engine.during_keepVariables h
  | .setFunctions _ =>
    exact hbind (still_functionEntries _) fun _ => Engine.during_keepFunctions hfunctions h
  | .reset .. =>
    exact hbind (still_lift _) fun _ =>
      Engine.during_keepFunctions hfunctions (Engine.during_keepVariables h)
  | .removeVariable name =>
    refine left_remove (K := fun e => ∀ v ∈ e.evaluating, v.Every P) h fun c hc => ?_
    rw [Engine.evaluating_removeVariable hc]
    exact h
  | .removeFunction name =>
    refine left_remove (K := fun e => ∀ v ∈ e.evaluating, v.Every P) h fun c hc => ?_
    rw [Engine.evaluating_removeFunction hc]
    exact h
  | .solve _ | .tokenize _ | .parse .. | .parseText .. | .evaluate .. | .addOperator .. |
    .clearCaches | .snapshot | .invalid _ => exact absurd ha (by simp [Step.aim?])

/-- A change of settings keeps what the step keeps of the settings. -/
theorem guards_revise {s : Step} {a : Aim} (ha : s.aim? = some a)
    (hP : ∀ run, P (.native run)) (hbrings : s.Brings P)
    (hkeeps : ∀ {t t'}, s.Alters t t' → I t → I t') : Guards (Upholds P I) (perform inner s) := by
  intro w h
  have halters := alters_revise inner ha w
  refine ⟨?_, halters.every hP hbrings h.every, hkeeps halters h.holds, ?_⟩
  · exact (walks_revise ha w h.rooted).keeps (P := fun w => w.engine.Rooted)
      Engine.invariant_rooted.move h.rooted
  · exact during_revise ha h.every.functions h.during

/-- A new operator leaves the evaluation in progress alone. -/
theorem evaluating_addOperator (operator : Datum) (binary : Option Function) (binaryLevel : Datum)
    (unary : Option Function) (unaryLevel : Datum) (isRight : Bool) (w : World) :
    (left (addOperator operator binary binaryLevel unary unaryLevel isRight w)).engine.evaluating
      = w.engine.evaluating := by
  cases haccept : accept operator binary binaryLevel unary unaryLevel with
  | error f =>
    rw [addOperator_refused haccept]
    rfl
  | ok name =>
    cases ho : w.engine.tables.operatorFunctions.extend name binary unary with
    | error f =>
      obtain ⟨events, -, hrun⟩ := addOperator_announced haccept isRight ho
      rw [hrun]
      rfl
    | ok o =>
      obtain ⟨events, -, hrun⟩ := addOperator_added haccept isRight ho
      rw [hrun]
      rfl

theorem guards_addOperator {operator : Datum} {binary : Option Function} {binaryLevel : Datum}
    {unary : Option Function} {unaryLevel : Datum} {isRight : Bool} (hP : ∀ run, P (.native run))
    (hbrings : (Step.addOperator operator binary binaryLevel unary unaryLevel isRight).Brings P)
    (hkeeps : ∀ {t t'}, (Step.addOperator operator binary binaryLevel unary unaryLevel
      isRight).Alters t t' → I t → I t') :
    Guards (Upholds P I) (addOperator operator binary binaryLevel unary unaryLevel isRight) := by
  intro w h
  have halters := alters_addOperator w operator binary binaryLevel unary unaryLevel isRight
  refine ⟨?_, halters.every hP hbrings h.every, hkeeps halters h.holds, ?_⟩
  · exact (walks_addOperator _ _ _ _ _ _ w h.rooted).keeps (P := fun w => w.engine.Rooted)
      Engine.invariant_rooted.move h.rooted
  · rw [evaluating_addOperator]
    exact h.during

/-- A step keeps what it is known to keep of the settings, and what the steps in it keep. -/
theorem guards_perform (hP : ∀ run, P (.native run))
    (hinner : ∀ f args, P f → Guards (Upholds P I) (inner f args)) {s : Step}
    (hbrings : s.Brings P) (hkeeps : ∀ {t t'}, s.Alters t t' → I t → I t') :
    Guards (Upholds P I) (perform inner s) := by
  cases ha : s.aim? with
  | some a => exact guards_revise ha hP hbrings hkeeps
  | none =>
    match s with
    | .solve d =>
      refine ((guards_tree d).bind fun expr => ?_).bind fun _ => guards_pure _
      exact guards_evaluate hP hinner expr _
    | .tokenize d => exact (guards_tokenize d).bind fun _ => guards_pure _
    | .parse none _ => exact guards_fault _
    | .parse (some ts) source => exact (guards_parse ts source).bind fun _ => guards_pure _
    | .parseText d source =>
      exact (guards_tokenize d).bind fun ts => (guards_parse ts source).bind fun _ => guards_pure _
    | .evaluate expr source =>
      exact (guards_evaluate hP hinner expr source).bind fun _ => guards_pure _
    | .addOperator .. =>
      exact (guards_addOperator hP hbrings hkeeps).bind fun _ => guards_pure _
    | .clearCaches =>
      exact (guards_update fun h => ⟨.clearCaches _, h.every, h.holds, h.during⟩).bind fun _ =>
        guards_pure _
    | .snapshot => exact guards_get fun _ => guards_pure _
    | .invalid cause => exact guards_fault cause

theorem guards_performAll {run : Step → Run Answer} {ss : List Step}
    (hrun : ∀ s ∈ ss, Guards J (run s)) (last : Answer) : Guards J (performAll run ss last) := by
  induction ss generalizing last with
  | nil => exact guards_pure last
  | cons s ss ih =>
    refine (hrun s (List.mem_cons_self ..)).bind fun answer => ih ?_ answer
    exact fun x hx => hrun x (List.mem_cons_of_mem _ hx)

theorem guards_invoke_quiet {f : Function} (hf : f.Quiet) (depth : Nat) (args : List Value) :
    Guards J (invoke depth f args) := by
  intro w h
  rw [invoke_quiet hf, left_outcome]
  exact h

/-- Calls of functions of a closed kind keep what the permitted steps keep of the settings, however
deep the steps in them are nested. -/
theorem guards_invoke (hclosed : Function.Closed Q P)
    (hkeeps : ∀ {s : Step}, Q s → ∀ {t t'}, s.Alters t t' → I t → I t') (depth : Nat) (f : Function)
    (args : List Value) (hf : P f) : Guards (Upholds P I) (invoke depth f args) := by
  induction depth generalizing f args with
  | zero =>
    obtain hquiet | ⟨steps, rfl⟩ := f.quiet_or_script
    · exact guards_invoke_quiet hquiet 0 args
    · exact guards_fault _
  | succ depth ih =>
    obtain hquiet | ⟨steps, rfl⟩ := f.quiet_or_script
    · exact guards_invoke_quiet hquiet _ args
    · refine (guards_performAll (fun s hs => ?_) .nothing).bind fun _ => guards_pure _
      obtain ⟨hQ, hbrings⟩ := hclosed.script hf s hs
      exact guards_perform hclosed.native ih hbrings (hkeeps hQ)

end Session

/-! ## Steps from outside -/

namespace Engine

variable {P : Function → Prop} {I : Tables → Prop} {Q : Step → Prop} {e : Engine}

theorem Upholds.step (hclosed : Function.Closed Q P)
    (hkeeps : ∀ {s : Step}, Q s → ∀ {t t'}, s.Alters t t' → I t → I t') (h : e.Upholds P I)
    {s : Step} (hs : Q s ∧ s.Brings P) : (e.step s).2.Upholds P I := by
  rw [(e.step_eq_left s).1]
  have hguards := Session.guards_perform hclosed.native
    (Session.guards_invoke hclosed hkeeps Session.maxNesting) hs.2 (hkeeps hs.1)
  exact (hguards ⟨e, []⟩ h).rest

/-- Permitted steps, with functions that perform permitted steps only, keep what each of these keeps
of the settings. -/
theorem Upholds.steps (hclosed : Function.Closed Q P)
    (hkeeps : ∀ {s : Step}, Q s → ∀ {t t'}, s.Alters t t' → I t → I t') (h : e.Upholds P I)
    {ss : List Step} (hss : ∀ s ∈ ss, Q s ∧ s.Brings P) : (e.steps ss).2.Upholds P I := by
  induction ss generalizing e with
  | nil => exact h
  | cons s ss ih =>
    refine ih (h.step hclosed hkeeps (hss s (List.mem_cons_self ..))) fun x hx => ?_
    exact hss x (List.mem_cons_of_mem _ hx)

variable {limits : Limits} {caching : Bool} {cacheSize operators : Datum}
  {levels : Precedence.Source} {bindings : List (String × Value)}
  {operatorFunctions : OperatorSource} {functions : List (String × Function)} {c : Change}

/-- A new engine upholds what holds of its settings, with the functions that it is given. -/
theorem upholds_create (hc : create limits caching cacheSize operators levels bindings
    operatorFunctions functions = .ok c) (hP : ∀ run, P (.native run))
    (ho : operatorFunctions.Every P) (hf : ∀ e ∈ functions, P e.2) (hI : I c.engine.tables) :
    c.engine.Upholds P I := by
  obtain ⟨hread, hrest, -⟩ := of_create hc
  refine ⟨rooted_create hc, Tables.every_read hP ho hf hread, hI, ?_⟩
  rw [hrest]
  simp

end Engine

end Reckon
