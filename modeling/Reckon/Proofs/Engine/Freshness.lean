import Reckon.Proofs.Engine.Reentry
/-
  Stale results. A change of settings drops all results, but an evaluation remembers what it came to
  only when it is over. If a function changes the settings in the middle of an evaluation, the
  results are dropped first and the value that was computed with the old settings is remembered
  afterwards (`Engine.steps_stale`).

  This is the only way to a stale result. After the results were dropped for the last time, they are
  all values under the settings in force, and so are the answers to come, if no function that is
  called changes settings (`Engine.steps_fresh`). It may well evaluate expressions, in the middle of
  the evaluation that calls it, which find and leave results of their own. Functions that do change
  settings may be around, and may have been called before.
-/
namespace Reckon

/-- Whether no function that was called in a step changes settings. -/
def Report.calm (r : Report) : Bool := r.events.all Event.calm

namespace Engine

variable {e : Engine} {s : Step}

/-- Between steps, an engine reads the tables in force. -/
theorem serves_self (hrest : e.evaluating = none) (hrooted : e.Rooted)
    (hresults : ∀ key v, (key, v) ∈ e.results.entries → e.Gives key v) : e.Serves e := by
  refine ⟨⟨.refl e, ?_, hrooted⟩, hresults⟩
  unfold scope
  rw [hrest]
  exact ⟨rfl, rfl, rfl⟩

theorem step_of_aim (hrest : e.evaluating = none) {a : Aim} (ha : s.aim? = some a) :
    (e.step s).2 = e ∨ (e.step s).2.results.entries = [] := by
  have hmakes := Session.makes_revise (Session.invoke Session.maxNesting) ha ⟨e, []⟩
  cases hr : s.revise e.tables with
  | ok t =>
    rw [hr] at hmakes
    obtain ⟨w, hrun, -, hchanged, -⟩ := hmakes
    right
    rw [step_of_ok hrun]
    show w.engine.results.entries = []
    rw [hchanged.results]
    rfl
  | error f =>
    rw [hr] at hmakes
    left
    rw [step_of_error hmakes]
    exact rest_eq_self hrest

theorem step_addOperator (hrest : e.evaluating = none) (operator : Datum)
    (binary : Option Function) (binaryLevel : Datum) (unary : Option Function) (unaryLevel : Datum)
    (isRight : Bool) :
    (e.step (.addOperator operator binary binaryLevel unary unaryLevel isRight)).2 = e
      ∨ (e.step (.addOperator operator binary binaryLevel unary unaryLevel
          isRight)).2.results.entries = [] := by
  cases haccept : Session.accept operator binary binaryLevel unary unaryLevel with
  | error f =>
    left
    rw [step_of_error (bind_of_eq_error (Session.addOperator_refused haccept isRight ⟨e, []⟩))]
    exact rest_eq_self hrest
  | ok name =>
    right
    cases ho : e.tables.operatorFunctions.extend name binary unary with
    | error f =>
      obtain ⟨events, -, hrun⟩ := Session.addOperator_announced haccept isRight (w := ⟨e, []⟩) ho
      rw [step_of_error (bind_of_eq_error hrun)]
      rfl
    | ok o =>
      obtain ⟨events, -, hrun⟩ := Session.addOperator_added haccept isRight (w := ⟨e, []⟩) ho
      rw [step_of_ok (bind_of_eq_ok hrun)]
      rfl

/-- A step that changes settings is refused and leaves no trace, or it drops all results. -/
theorem step_of_not_asks (hrest : e.evaluating = none) (hs : s.asks = false) :
    (e.step s).2 = e ∨ (e.step s).2.results.entries = [] := by
  cases ha : s.aim? with
  | some a => exact step_of_aim hrest ha
  | none =>
    match s with
    | .addOperator operator binary binaryLevel unary unaryLevel isRight =>
      exact step_addOperator hrest operator binary binaryLevel unary unaryLevel isRight
    | .solve _ | .tokenize _ | .parse .. | .parseText .. | .evaluate .. | .clearCaches | .snapshot |
      .invalid _ => exact absurd hs (by simp [Step.asks])
    | .setOperators _ | .setPrecedence _ | .setOperatorFunctions _ | .addVariable .. |
      .addVariables _ | .setVariables _ | .removeVariable _ | .addFunction .. | .addFunctions _ |
      .setFunctions _ | .removeFunction _ | .reset .. => exact absurd ha (by simp [Step.aim?])

theorem calm_left (hcalm : (e.step s).1.calm = true) : (left (Session.run s ⟨e, []⟩)).Calm := by
  unfold Report.calm at hcalm
  rw [(e.step_eq_left s).2] at hcalm
  exact List.all_eq_true.1 hcalm

/-- A calm step leaves an engine whose results are all given under the settings in force then. -/
theorem Serves.step (h : e.Serves e) (hrest : e.evaluating = none)
    (hcalm : (e.step s).1.calm = true) : (e.step s).2.Serves (e.step s).2 := by
  have hrest' := e.evaluating_step s
  have hrooted := invariant_rooted.step h.rooted h.rooted s
  cases hs : s.asks with
  | true =>
    have hserves := (Session.mirrors_perform (Session.mirrored_invoke e Session.maxNesting)
      hs).serves (w := ⟨e, []⟩) h (calm_left hcalm)
    refine serves_self hrest' hrooted fun key v hm => ?_
    rw [(e.step_eq_left s).1] at hm ⊢
    exact (hserves.results key v hm).congr
      ⟨hserves.same.limits.symm, hserves.same.tables.symm, hserves.same.trie.symm⟩
  | false =>
    obtain heq | hdropped := step_of_not_asks hrest hs
    · rw [heq]
      exact h
    · refine serves_self hrest' hrooted fun key v hm => ?_
      rw [hdropped] at hm
      exact absurd hm List.not_mem_nil

theorem Serves.steps (h : e.Serves e) (hrest : e.evaluating = none) {ss : List Step}
    (hcalm : ∀ report ∈ (e.steps ss).1, report.calm = true) :
    (e.steps ss).2.Serves (e.steps ss).2 := by
  induction ss generalizing e with
  | nil => exact h
  | cons s ss ih =>
    have hstep : (e.step s).1.calm = true := hcalm _ (List.mem_cons_self ..)
    exact ih (h.step hrest hstep) (e.evaluating_step s) fun report hm =>
      hcalm report (List.mem_cons_of_mem _ hm)

/-! ## Answers -/

theorem run_of_result {a : Answer} (h : (e.step s).1.result = .ok a) :
    ∃ w, Session.run s ⟨e, []⟩ = .ok a w := by
  cases hrun : Session.run s ⟨e, []⟩ with
  | ok a' w =>
    rw [step_of_ok hrun] at h
    rw [Except.ok.inj h]
    exact ⟨w, rfl⟩
  | error f w =>
    rw [step_of_error hrun] at h
    exact absurd h (by simp)

theorem gives_of_evaluate (h : e.Serves e) {expr : Expr} {source : Option String} {v : Value}
    (hresult : (e.step (.evaluate expr source)).1.result = .ok (.value v))
    (hcalm : (e.step (.evaluate expr source)).1.calm = true) : e.Gives expr v := by
  obtain ⟨w, hrun⟩ := run_of_result hresult
  have hcalm' := calm_left hcalm
  rw [hrun] at hcalm'
  obtain ⟨v', w', hevaluate, hanswer⟩ := exists_of_run_eq_ok hrun
  obtain ⟨hv, rfl⟩ := EStateM.Result.ok.inj hanswer
  obtain rfl := Answer.value.inj hv
  exact Session.gives_of_evaluate (Session.mirrored_invoke e Session.maxNesting) h hevaluate hcalm'

theorem gives_of_solve (h : e.Serves e) {text : String} {v : Value}
    (hresult : (e.step (.solve (.str text))).1.result = .ok (.value v))
    (hcalm : (e.step (.solve (.str text))).1.calm = true) :
    ∃ expr, e.freshTree text = .ok expr ∧ e.Gives expr v := by
  obtain ⟨w, hrun⟩ := run_of_result hresult
  have hcalm' := calm_left hcalm
  rw [hrun] at hcalm'
  obtain ⟨v', w', hsolve, hanswer⟩ := exists_of_run_eq_ok hrun
  obtain ⟨hv, rfl⟩ := EStateM.Result.ok.inj hanswer
  obtain rfl := Answer.value.inj hv
  exact Session.gives_of_solve (Session.mirrored_invoke e Session.maxNesting) h hsolve hcalm'

variable {limits : Limits} {caching : Bool} {cacheSize operators : Datum}
  {levels : Precedence.Source} {bindings : List (String × Value)}
  {operatorFunctions : OperatorSource} {functions : List (String × Function)} {c : Change}

/-- No stale results, unless a function changes settings in the middle of an evaluation. Take any
engine that is made and used until it has no results, as it has none at first and after every change
of settings. As long as no function is called that changes settings, whatever changes them from
outside, every result is what its tree comes to anew under the settings in force, and so is every
answer. -/
theorem steps_fresh (hc : create limits caching cacheSize operators levels bindings
    operatorFunctions functions = .ok c) (ss : List Step)
    (hdropped : (c.engine.steps ss).2.results.entries = []) {ss' : List Step}
    (hcalm : ∀ report ∈ ((c.engine.steps ss).2.steps ss').1, report.calm = true) {e : Engine}
    (he : e = ((c.engine.steps ss).2.steps ss').2) :
    (∀ key v, (key, v) ∈ e.results.entries → e.Gives key v)
      ∧ (∀ expr source v, (e.step (.evaluate expr source)).1.result = .ok (.value v) →
          (e.step (.evaluate expr source)).1.calm = true → e.Gives expr v)
      ∧ ∀ text v, (e.step (.solve (.str text))).1.result = .ok (.value v) →
          (e.step (.solve (.str text))).1.calm = true →
          ∃ expr, e.freshTree text = .ok expr ∧ e.Gives expr v := by
  have hrest := evaluating_steps (of_create hc).2.1 ss
  have hrooted := invariant_rooted.steps (rooted_create hc) (rooted_create hc) ss
  have hserves : (c.engine.steps ss).2.Serves (c.engine.steps ss).2 := by
    refine serves_self hrest hrooted fun key v hm => ?_
    rw [hdropped] at hm
    exact absurd hm List.not_mem_nil
  have hlast := hserves.steps hrest hcalm
  rw [← he] at hlast
  exact ⟨hlast.results, fun _ _ _ => gives_of_evaluate hlast, fun _ _ => gives_of_solve hlast⟩

/-- An engine with a function that changes `x` and one that evaluates `x + 1`. The first is called,
then `x` is changed from outside, and the second is called twice. -/
theorem steps_fresh_nested :
    ∃ c e, create {} true (.int 4) .none .standard [("x", .int 1)] (.datum .none)
        [("change", .script [.addVariable "x" (.int 5)]),
          ("next", .script [.evaluate (.binary "+" (.var "x" 0) (.constant "1" 4) 2) none])] = .ok c
      ∧ e = ((c.engine.steps [.evaluate (.call "change" [] 0) none,
          .addVariable "x" (.int 2)]).2.steps [.evaluate (.call "next" [] 0) none,
            .evaluate (.call "next" [] 7) none]).2
      ∧ e.results.entries = [(.binary "+" (.var "x" 0) (.constant "1" 0) 0, .int 3),
          (.call "next" [] 0, .int 3)]
      ∧ e.Gives (.binary "+" (.var "x" 0) (.constant "1" 0) 0) (.int 3)
      ∧ e.Gives (.call "next" [] 0) (.int 3) := by
  obtain ⟨c, hc⟩ : ∃ c, create {} true (.int 4) .none .standard [("x", .int 1)] (.datum .none)
      [("change", .script [.addVariable "x" (.int 5)]),
        ("next", .script [.evaluate (.binary "+" (.var "x" 0) (.constant "1" 4) 2) none])]
      = .ok c := ⟨_, rfl⟩
  obtain ⟨e, he⟩ : ∃ e, e = ((c.engine.steps [.evaluate (.call "change" [] 0) none,
      .addVariable "x" (.int 2)]).2.steps [.evaluate (.call "next" [] 0) none,
        .evaluate (.call "next" [] 7) none]).2 := ⟨_, rfl⟩
  have hengine := (Except.ok.inj hc).symm
  have hdropped : (c.engine.steps [.evaluate (.call "change" [] 0) none,
      .addVariable "x" (.int 2)]).2.results.entries = [] := by
    rw [hengine]
    rfl
  have hcalm : ((c.engine.steps [.evaluate (.call "change" [] 0) none,
      .addVariable "x" (.int 2)]).2.steps [.evaluate (.call "next" [] 0) none,
        .evaluate (.call "next" [] 7) none]).1.all Report.calm = true := by
    rw [hengine]
    rfl
  have hresults : e.results.entries = [(.binary "+" (.var "x" 0) (.constant "1" 0) 0, .int 3),
      (.call "next" [] 0, .int 3)] := by
    rw [he, hengine]
    rfl
  have hgives := (steps_fresh hc _ hdropped (List.all_eq_true.1 hcalm) he).1
  rw [hresults] at hgives
  refine ⟨c, e, hc, he, hresults, ?_, ?_⟩
  · exact hgives _ _ (List.mem_cons_self ..)
  · exact hgives _ _ (List.mem_cons_of_mem _ (List.mem_cons_self ..))

/-- A function sets `x` to 5 while `x + f()` is evaluated with 1. The result 1 stays, and is
answered again, although the tree now comes to 5. -/
theorem steps_stale :
    ∃ c e, create {} true (.int 4) .none .standard [("x", .int 1), ("y", .int 0)] (.datum .none)
        [("f", .script [.addVariable "x" (.int 5), .evaluate (.var "y" 0) none])] = .ok c
      ∧ e = (c.engine.steps [.evaluate (.binary "+" (.var "x" 0) (.call "f" [] 4) 2) none]).2
      ∧ e.tables.bindings.find? "x" = some (.int 5)
      ∧ (.binary "+" (.var "x" 0) (.call "f" [] 0) 0, .int 1) ∈ e.results.entries
      ∧ (e.step (.evaluate (.binary "+" (.var "x" 0) (.call "f" [] 4) 2) none)).1.result
          = .ok (.value (.int 1))
      ∧ ¬ e.Gives (.binary "+" (.var "x" 0) (.call "f" [] 0) 0) (.int 1) := by
  obtain ⟨c, hc⟩ : ∃ c, create {} true (.int 4) .none .standard [("x", .int 1), ("y", .int 0)]
      (.datum .none) [("f", .script [.addVariable "x" (.int 5), .evaluate (.var "y" 0) none])]
      = .ok c := ⟨_, rfl⟩
  obtain ⟨e, he⟩ : ∃ e, e = (c.engine.steps
      [.evaluate (.binary "+" (.var "x" 0) (.call "f" [] 4) 2) none]).2 := ⟨_, rfl⟩
  have hengine := (Except.ok.inj hc).symm
  refine ⟨c, e, hc, he, ?_, ?_, ?_, ?_⟩
  · rw [he, hengine]
    rfl
  · rw [he, hengine]
    exact List.mem_cons_of_mem _ (List.mem_cons_self ..)
  · rw [he, hengine]
    rfl
  · intro hgives
    obtain ⟨depth, hsettles⟩ := hgives (.binary "+" (.var "x" 0) (.call "f" [] 0) 0) none rfl
    obtain ⟨u, hrun, -⟩ := hsettles (depth + 1) (Nat.le_succ depth) ⟨e.blank, []⟩ e.forgets_blank
    obtain ⟨u', hrun'⟩ : ∃ u', Session.evaluate (Session.invoke (depth + 1))
        (.binary "+" (.var "x" 0) (.call "f" [] 0) 0) none ⟨e.blank, []⟩ = .ok (.int 5) u' := by
      rw [he, hengine]
      exact ⟨_, rfl⟩
    exact absurd (EStateM.Result.ok.inj (hrun'.symm.trans hrun)).1 (by simp)

end Engine

end Reckon
