import Reckon.Proofs.Engine.Blame
import Reckon.Proofs.Engine.Settings
import Reckon.Proofs.Expr.Locating
import Reckon.Proofs.Expr.Refusals
/-
  What solving can come to. A text has no tokens, its tokens have no tree, or the tree is evaluated
  (`Engine.solve_error_cases`). An evaluation that calls quiet functions only fails with an error of
  the evaluation, or it passes on what a call has come to (`Session.eval_contains`), and it passes
  on only what is not tame: bare faults that are not contained, and errors of another stage.

  So where levels are whole numbers and the calls are tame, solving a text gives a value or an error
  of an expression, and the stage of the error is the one that has failed. This is the case on every
  engine whose levels were given as data to be checked, or as whole numbers
  (`Engine.solve_contained`).
-/
namespace Reckon

/-- What an evaluation reports as an error of its own when a call comes to it: a contained fault, or
an error of an evaluation. -/
def Failure.IsTame : Failure → Prop
  | .fault f => f.kind.isContained = true
  | .error e => e.problem.stage = .evaluation

namespace Evaluation

variable {source : Option String} {e : Failure}

/-- A failure of an operator becomes an error of the evaluation if it is tame, and is passed on
otherwise. -/
theorem operatorFailure_cases (op : String) (position : Int) (source : Option String)
    (e : Failure) :
    (∃ err : Error, operatorFailure op position source e = .error err
        ∧ err.problem.stage = .evaluation)
      ∨ operatorFailure op position source e = e ∧ ¬ e.IsTame := by
  cases e with
  | error err =>
    rcases Classical.em (err.problem.stage = .evaluation) with hstage | hstage
    · exact Or.inl ⟨err, rfl, hstage⟩
    · exact Or.inr ⟨rfl, hstage⟩
  | fault f =>
    by_cases hc : f.kind.isContained = true
    · exact Or.inl ⟨_, if_pos hc, rfl⟩
    · exact Or.inr ⟨if_neg hc, hc⟩

theorem callFailure_cases (name : String) (position : Option Int) (source : Option String)
    (e : Failure) :
    (∃ err : Error, callFailure name position source e = .error err
        ∧ err.problem.stage = .evaluation)
      ∨ callFailure name position source e = e ∧ ¬ e.IsTame := by
  cases e with
  | fault f =>
    by_cases hc : f.kind.isContained = true
    · exact Or.inl ⟨_, if_pos hc, rfl⟩
    · exact Or.inr ⟨if_neg hc, hc⟩
  | error err =>
    rcases Classical.em (err.problem.stage = .evaluation) with hstage | hstage
    · left
      obtain ⟨problem, place, expression, cause⟩ := err
      cases problem with
      | rejected function reason =>
        cases place with
        | none => exact ⟨_, rfl, hstage⟩
        | some _ => exact ⟨_, rfl, hstage⟩
      | _ => exact ⟨_, rfl, hstage⟩
    · right
      refine ⟨?_, hstage⟩
      obtain ⟨problem, place, expression, cause⟩ := err
      cases problem with
      | rejected function reason => exact absurd rfl hstage
      | _ => rfl

end Evaluation

namespace Session

open Evaluation

variable {depth : Nat} {w w' : World} {expr : Expr} {f : Failure}

/-- A call of a quiet function is noted, and answers without a step. -/
theorem call_quiet {callee : Function} (h : callee.Quiet) (depth : Nat) (args : List Value)
    (w : World) :
    (host (invoke depth)).call callee args w
      = outcome (callee.apply args) { w with events := w.events ++ [.called ⟨callee, args⟩] } := by
  have hcall : (host (invoke depth)).call callee args w
      = invoke depth callee args { w with events := w.events ++ [.called ⟨callee, args⟩] } := rfl
  rw [hcall, invoke_quiet h]

/-- A call that fails is noted, and leaves the engine alone. -/
theorem of_call_eq_error {callee : Function} (h : callee.Quiet) {args : List Value}
    (hcall : (host (invoke depth)).call callee args w = .error f w') :
    callee.apply args = .error f ∧ .called ⟨callee, args⟩ ∈ w'.events ∧ w'.engine = w.engine := by
  rw [call_quiet h] at hcall
  have happly := eq_of_outcome_eq_error hcall
  rw [happly] at hcall
  obtain ⟨-, rfl⟩ := EStateM.Result.error.inj hcall
  exact ⟨happly, List.mem_append_right _ (List.mem_singleton_self _), rfl⟩

/-- What an evaluation on an engine with quiet functions leaves of the engine: all of it. -/
theorem engine_eval {e : Engine} (hq : e.scope.Quiet) (depth : Nat) (expr : Expr)
    (hw : w.engine = e) : (left (eval (host (invoke depth)) expr w)).engine = e := by
  rw [← hw] at hq
  rw [eval_eq hq depth expr, left_outcome, hw]

theorem engine_of_eval {e : Engine} (hq : e.scope.Quiet) (hw : w.engine = e) {v : Value}
    (hrun : eval (host (invoke depth)) expr w = .ok v w') : w'.engine = e :=
  of_eq_ok (P := fun w : World => w.engine = e) (engine_eval hq depth expr hw) hrun

theorem engine_of_evalAll {e : Engine} (hq : e.scope.Quiet) (hw : w.engine = e)
    {args : List Expr} {vs : List Value}
    (hrun : evalAll (host (invoke depth)) args w = .ok vs w') : w'.engine = e := by
  have hkept := evalAll_keeps_of_eval (P := fun w : World => w.engine = e)
    (fun x _ hw => engine_eval hq depth x hw) args hw
  exact of_eq_ok (P := fun w : World => w.engine = e) hkept hrun

/-- The node that fails is evaluated on the engine as it was. -/
theorem engine_reaches {e : Engine} (hq : e.scope.Quiet) (hw : w.engine = e) {x : Expr}
    (h : Reaches (host (invoke depth)) expr w x w') : w'.engine = e :=
  h.keeps (P := fun w => w.engine = e) (fun x _ hw => engine_eval hq depth x hw) hw

/-- A node that breaks gives an error of the evaluation, or passes on what its call has come to. -/
theorem of_breaks {e : Engine} (hq : e.scope.Quiet) (hw : w.engine = e)
    (h : Breaks (host (invoke depth)) expr w f w') :
    (∃ err : Error, f = .error err ∧ err.problem.stage = .evaluation)
      ∨ ¬ f.IsTame ∧ ∃ i, .called i ∈ w'.events ∧ i.callee.apply i.args = .error f := by
  have hquiet : ∀ callee, w.engine.scope.Has callee → callee.Quiet := by
    rw [hw]
    exact hq
  cases h with
  | constant | var | unaryUnknown | binaryUnknown | callUnknown | unknown =>
    exact Or.inl ⟨_, rfl, rfl⟩
  | @unary op _ position _ _ _ callee v e' hfind _ hcall =>
    obtain ⟨happly, hcalled, -⟩ := of_call_eq_error (hquiet callee (Or.inl ⟨op, hfind⟩)) hcall
    obtain herr | ⟨hsame, htame⟩ := operatorFailure_cases op position _ e'
    · exact Or.inl herr
    · rw [hsame]
      exact Or.inr ⟨htame, _, hcalled, happly⟩
  | @binary op _ _ position _ _ _ _ callee a b e' hfind _ _ hcall =>
    obtain ⟨happly, hcalled, -⟩ :=
      of_call_eq_error (hquiet callee (Or.inr (Or.inl ⟨op, hfind⟩))) hcall
    obtain herr | ⟨hsame, htame⟩ := operatorFailure_cases op position _ e'
    · exact Or.inl herr
    · rw [hsame]
      exact Or.inr ⟨htame, _, hcalled, happly⟩
  | @call name _ position _ _ _ callee vs e' hfind _ hcall =>
    obtain ⟨happly, hcalled, -⟩ :=
      of_call_eq_error (hquiet callee (Or.inr (Or.inr ⟨name, hfind⟩))) hcall
    obtain herr | ⟨hsame, htame⟩ := callFailure_cases name (some position) _ e'
    · exact Or.inl herr
    · rw [hsame]
      exact Or.inr ⟨htame, _, hcalled, happly⟩

/-- An evaluation that fails gives an error of the evaluation, or passes on what a call has come to
that is not tame. -/
theorem eval_contains (hq : w.engine.scope.Quiet)
    (hrun : eval (host (invoke depth)) expr w = .error f w') :
    (∃ err : Error, f = .error err ∧ err.problem.stage = .evaluation)
      ∨ ¬ f.IsTame ∧ ∃ i, .called i ∈ w'.events ∧ i.callee.apply i.args = .error f := by
  obtain ⟨x, w₁, hreach, hbreak⟩ := eval_eq_error_iff_breaks.1 hrun
  exact of_breaks hq (engine_reaches hq rfl hreach) hbreak

end Session

namespace Engine

variable {e : Engine} {text : String} {f : Failure}

/-! ## Solving -/

/-- Solving fails where the text has no tree, or where the evaluation of its tree fails. -/
theorem solve_error_cases (h : e.Rooted) (hr : (e.step (.solve (.str text))).1.result = .error f) :
    e.freshTree text = .error f
      ∨ ∃ (tree : Expr) (w w' : World), e.freshTree text = .ok tree ∧ e.Built w.engine
        ∧ Evaluation.eval (Session.host (Session.invoke Session.maxNesting)) tree
            { w with engine := w.engine.beginEvaluation (some text) } = .error f w'
        ∧ (e.step (.solve (.str text))).1.events = w'.events := by
  obtain ⟨w', hrun⟩ := exists_run_of_error hr
  have hevents : (e.step (.solve (.str text))).1.events = w'.events := by rw [step_of_error hrun]
  have hsolve : Session.solve (Session.invoke Session.maxNesting) (.str text) ⟨e, []⟩
      = .error f w' := by
    obtain hsolve | ⟨v, w₁, -, hpure⟩ := exists_of_run_eq_error hrun
    · exact hsolve
    · exact absurd hpure (by simp [pure, EStateM.pure])
  obtain ⟨w₁, hbuilt, -, htree⟩ := Session.tree_lands (w := ⟨e, []⟩) h text
  obtain hfailed | ⟨tree, w₂, hok, hevaluate⟩ := exists_of_run_eq_error hsolve
  · rw [htree] at hfailed
    exact Or.inl (eq_of_outcome_eq_error hfailed)
  · rw [htree] at hok
    have hfresh := eq_of_outcome_eq_ok hok
    rw [show (⟨e, []⟩ : World).engine.freshTree text = .ok tree from hfresh] at hok
    obtain ⟨-, rfl⟩ := EStateM.Result.ok.inj hok
    exact Or.inr ⟨tree, w₁, w', hfresh, hbuilt, Session.eval_of_evaluate_eq_error hevaluate,
      hevents⟩

/-- Solving that succeeds gives a value. -/
theorem solve_value {a : Answer} (hr : (e.step (.solve (.str text))).1.result = .ok a) :
    ∃ v, a = .value v := by
  cases hrun : Session.run (.solve (.str text)) ⟨e, []⟩ with
  | error f' w =>
    rw [step_of_error hrun] at hr
    exact absurd hr (by simp)
  | ok a' w =>
    rw [step_of_ok hrun] at hr
    obtain rfl := Except.ok.inj hr
    obtain ⟨v, w₁, -, hpure⟩ := exists_of_run_eq_ok hrun
    exact ⟨v, (EStateM.Result.ok.inj hpure).1.symm⟩

/-- A text without a tree has no tokens, or its tokens have no tree. -/
theorem of_freshTree_eq_error (h : e.freshTree text = .error f) :
    e.freshTokens text = .error f
      ∨ ∃ ts, e.freshTokens text = .ok ts ∧ e.freshParse ts (some text) = .error f := by
  unfold freshTree at h
  cases htokens : e.freshTokens text with
  | error f' =>
    rw [htokens] at h
    exact Or.inl (congrArg Except.error (Except.error.inj h))
  | ok ts =>
    rw [htokens] at h
    exact Or.inr ⟨ts, rfl, h⟩

/-- A text without tokens is reported as an error of its letters or of a limit. -/
theorem stage_of_freshTokens (h : e.freshTokens text = .error f) :
    ∃ err : Error, f = .error err
      ∧ (err.problem.stage = .limit ∨ err.problem.stage = .lexical) := by
  obtain rfl | ⟨first, others, rfl, -⟩ := Token.of_ofText_eq_error h
  · exact ⟨_, rfl, Or.inl rfl⟩
  · exact ⟨_, rfl, Or.inr rfl⟩

/-- With levels that are whole numbers, tokens without a tree are reported as an error of grammar or
of a limit. -/
theorem stage_of_freshParse (hp : e.tables.precedence.Integral) {ts : List Token}
    {source : Option String} (h : e.freshParse ts source = .error f) :
    ∃ err : Error, f = .error err
      ∧ (err.problem.stage = .limit ∨ err.problem.stage = .grammar) := by
  obtain ⟨problem, position, rfl⟩ | hlimit := Parser.isComplaint_or_isLimit_of_parse hp h
  · exact ⟨_, rfl, Or.inr rfl⟩
  · cases f with
    | error err => exact ⟨err, rfl, Or.inl hlimit⟩
    | fault fault => exact hlimit.elim

/-- Solving that fails: in the stage of the tokens, in that of the tree, or in the evaluation. -/
theorem solve_stages (h : e.Rooted) (hq : e.tables.Every Function.Quiet)
    (hp : e.tables.precedence.Integral)
    (hr : (e.step (.solve (.str text))).1.result = .error f) :
    (e.freshTokens text = .error f ∧ ∃ err : Error, f = .error err
        ∧ (err.problem.stage = .limit ∨ err.problem.stage = .lexical))
      ∨ (∃ ts, e.freshTokens text = .ok ts ∧ e.freshParse ts (some text) = .error f
          ∧ ∃ err : Error, f = .error err
            ∧ (err.problem.stage = .limit ∨ err.problem.stage = .grammar))
      ∨ (∃ err : Error, f = .error err ∧ err.problem.stage = .evaluation)
      ∨ ¬ f.IsTame ∧ ∃ i, .called i ∈ (e.step (.solve (.str text))).1.events
        ∧ i.callee.apply i.args = .error f := by
  obtain htree | ⟨tree, w, w', -, hbuilt, heval, hevents⟩ := solve_error_cases h hr
  · obtain htokens | ⟨ts, htokens, hparse⟩ := of_freshTree_eq_error htree
    · exact Or.inl ⟨htokens, stage_of_freshTokens htokens⟩
    · exact Or.inr (Or.inl ⟨ts, htokens, hparse, stage_of_freshParse hp hparse⟩)
  · have hquiet : (w.engine.beginEvaluation (some text)).scope.Quiet := by
      intro callee hcallee
      rw [← hbuilt.same.tables] at hq
      exact hq.scope Function.quiet_native (some text) hcallee
    rw [hevents]
    exact Or.inr (Or.inr (Session.eval_contains hquiet heval))

end Engine

/-! ## Levels -/

/-- A new operator with levels that are whole numbers. -/
theorem Precedence.Integral.withLevels {p : Precedence} (h : p.Integral) (name : String)
    {binary unary : Option Level} (hb : ∀ level ∈ binary, ∃ m : Int, level = .int m)
    (hu : ∀ level ∈ unary, ∃ m : Int, level = .int m) (isRight : Bool) :
    (Session.withLevels p name binary unary isRight).Integral := by
  refine Precedence.integral_iff.2 ⟨?_, ?_⟩
  · cases unary with
    | none => exact h.unary
    | some level =>
      obtain ⟨m, rfl⟩ := hu level rfl
      exact Precedence.Whole.insert h.unary name m
  · cases binary with
    | none => exact h.binary
    | some level =>
      obtain ⟨m, rfl⟩ := hb level rfl
      exact Precedence.Whole.insert h.binary name m

/-- A step that gives no levels but data that are still to be checked, or whole numbers. -/
def Step.GivesWhole : Step → Prop
  | .setPrecedence levels => levels.IsData
  | .reset _ levels _ _ _ => levels.IsData
  | .addOperator _ binary binaryLevel unary unaryLevel _ =>
    (binary.isSome = true → ∃ m : Int, binaryLevel = .int m)
      ∧ (unary.isSome = true → ∃ m : Int, unaryLevel = .int m)
  | _ => True

theorem Step.GivesWhole.isData {s : Step} (h : s.GivesWhole) :
    ∀ levels ∈ s.levels?, levels.IsData := by
  intro levels hlevels
  cases s with
  | setPrecedence | reset =>
    rw [← Option.some.inj hlevels]
    exact h
  | _ => exact absurd hlevels (by simp [Step.levels?])

theorem Tables.integral_read {operators : Datum} {levels : Precedence.Source}
    (hlevels : levels.IsData) {bindings : List (String × Value)}
    {operatorFunctions : OperatorSource} {functions : List (String × Function)} {t : Tables}
    (h : read operators levels bindings operatorFunctions functions = .ok t) :
    t.precedence.Integral :=
  Precedence.integral_read hlevels (of_read h).2.1

theorem int_of_mem_map {f : Option Function} {level : Datum}
    (h : f.isSome = true → ∃ m : Int, level = .int m) :
    ∀ l ∈ f.map fun _ => level, ∃ m : Int, l = .int m := by
  cases f with
  | none => simp
  | some g =>
    intro l hl
    rw [← Option.some.inj hl]
    exact h rfl

/-- Levels stay whole numbers. -/
theorem Step.Alters.integral {s : Step} {t t' : Tables} (h : s.Alters t t') (hs : s.GivesWhole)
    (ht : t.precedence.Integral) : t'.precedence.Integral := by
  obtain heq | ⟨levels, hlevels, hread⟩ | ⟨name, _, _, _, _, isRight, rfl, heq⟩ :=
    h.precedence_cases
  · rw [heq]
    exact ht
  · exact Precedence.integral_read (hs.isData levels hlevels) hread
  · rw [heq]
    exact ht.withLevels name (int_of_mem_map hs.1) (int_of_mem_map hs.2) isRight

namespace Engine

variable {limits : Limits} {caching : Bool} {cacheSize operators : Datum}
  {levels : Precedence.Source} {bindings : List (String × Value)}
  {operatorFunctions : OperatorSource} {functions : List (String × Function)} {c : Change}

theorem integral_create (hc : create limits caching cacheSize operators levels bindings
    operatorFunctions functions = .ok c) (hlevels : levels.IsData) :
    c.engine.tables.precedence.Integral := Tables.integral_read hlevels (of_create hc).1

/-- On an engine whose levels were given as data to be checked, or as whole numbers, and with quiet
functions only, whatever the variables are: solving a text leaves the settings alone. It fails with
a bare fault only where a call has come to one that is not contained. If all calls are tame, it
gives a value or an error of an expression, of the letters only if the text has no tokens, and of
the grammar only if its tokens have no tree. -/
theorem solve_contained (hlevels : levels.IsData) (ho : operatorFunctions.Every Function.Quiet)
    (hf : ∀ e ∈ functions, e.2.Quiet)
    (hc : create limits caching cacheSize operators levels bindings operatorFunctions functions
      = .ok c) {ss : List Step} (hss : ∀ s ∈ ss, s.Brings Function.Quiet ∧ s.GivesWhole)
    {e : Engine} (he : e = (c.engine.steps ss).2) (text : String) {report : Report} {e' : Engine}
    (hr : e.step (.solve (.str text)) = (report, e')) :
    e'.tables = e.tables
      ∧ (∀ fault, report.result = .error (.fault fault) →
          ∃ i, .called i ∈ report.events ∧ i.callee.apply i.args = .error (.fault fault)
            ∧ fault.kind.isContained = false)
      ∧ ((∀ i, .called i ∈ report.events → ∀ f, i.callee.apply i.args = .error f → f.IsTame) →
          (∃ v, report.result = .ok (.value v))
            ∨ ∃ err, report.result = .error (.error err)
              ∧ (err.problem.stage = .lexical → e.freshTokens text = .error (.error err))
              ∧ (err.problem.stage = .grammar → ∃ ts, e.freshTokens text = .ok ts
                  ∧ e.freshParse ts (some text) = .error (.error err))) := by
  have hrooted := invariant_rooted.steps (rooted_create hc) (rooted_create hc) ss
  obtain ⟨hq, hp⟩ := steps_tables (I := fun t => t.precedence.Integral) (rooted_create hc)
    (sound_create hc ho hf).quiet (integral_create hc hlevels) (fun s hs => (hss s hs).1)
    fun s hs _ _ halters ht => halters.integral (hss s hs).2 ht
  rw [← he] at hrooted hq hp
  have htables := alters_step hrooted hq (.solve (.str text))
  have hstages : ∀ f, (e.step (.solve (.str text))).1.result = .error f → _ := fun f hf =>
    solve_stages hrooted hq hp hf
  rw [hr] at htables hstages
  refine ⟨?_, fun fault hfault => ?_, fun htame => ?_⟩
  · exact htables.eq_of_solve
  · obtain ⟨-, _, h, -⟩ | ⟨_, -, -, _, h, -⟩ | ⟨_, h, -⟩ | ⟨hbare, i, hcalled, happly⟩ :=
      hstages _ hfault
    · exact absurd h (by simp)
    · exact absurd h (by simp)
    · exact absurd h (by simp)
    · exact ⟨i, hcalled, happly, Bool.eq_false_iff.2 hbare⟩
  · cases hresult : report.result with
    | ok a =>
      have hanswer : (e.step (.solve (.str text))).1.result = .ok a := by
        rw [hr]
        exact hresult
      obtain ⟨v, rfl⟩ := solve_value hanswer
      exact Or.inl ⟨v, rfl⟩
    | error f =>
      right
      obtain ⟨htokens, err, rfl, hstage⟩ | ⟨ts, htokens, hparse, err, rfl, hstage⟩
        | ⟨err, rfl, hstage⟩ | ⟨hbare, i, hcalled, happly⟩ := hstages f hresult
      · refine ⟨err, rfl, fun _ => htokens, fun hgrammar => ?_⟩
        rw [hgrammar] at hstage
        exact absurd hstage (by decide)
      · refine ⟨err, rfl, fun hlexical => ?_, fun _ => ⟨ts, htokens, hparse⟩⟩
        rw [hlexical] at hstage
        exact absurd hstage (by decide)
      · refine ⟨err, rfl, fun hlexical => ?_, fun hgrammar => ?_⟩
        · exact absurd (hstage.symm.trans hlexical) (by decide)
        · exact absurd (hstage.symm.trans hgrammar) (by decide)
      · exact absurd (htame i hcalled f happly) hbare

/-- A variable that holds a text, a function and an operator that record their calls, and a name
that is not known. -/
theorem solve_contained_unknown :
    ∃ c e report e' err, create {} true (.int 4) .none .standard [("x", .str "ab")] (.datum .none)
        [("note", .record "f")] = .ok c
      ∧ e = (c.engine.steps [.addOperator (.str "~") (some (.record "g")) (.int 3) none .none
          false]).2
      ∧ e.step (.solve (.str "note(x) ~ y")) = (report, e')
      ∧ e'.tables = e.tables ∧ report.result = .error (.error err)
      ∧ err.problem.stage ≠ .lexical ∧ err.problem.stage ≠ .grammar := by
  obtain ⟨c, hc⟩ : ∃ c, create {} true (.int 4) .none .standard [("x", .str "ab")] (.datum .none)
      [("note", .record "f")] = .ok c := ⟨_, rfl⟩
  obtain ⟨e, he⟩ : ∃ e, e = (c.engine.steps [.addOperator (.str "~") (some (.record "g")) (.int 3)
      none .none false]).2 := ⟨_, rfl⟩
  obtain ⟨report, e', hr⟩ : ∃ report e', e.step (.solve (.str "note(x) ~ y")) = (report, e') :=
    ⟨_, _, rfl⟩
  have hengine := (Except.ok.inj hc).symm
  have hreport : report = (e.step (.solve (.str "note(x) ~ y"))).1 := by rw [hr]
  have hfailed : report.error?.isSome = true := by
    rw [hreport, he, hengine]
    decide +kernel
  have hrecords : (report.events.all fun ev => ev.record?.isSome || ev.mark?.isSome) = true := by
    rw [hreport, he, hengine]
    decide +kernel
  have htokens : (e.freshTree "note(x) ~ y").isOk = true := by
    rw [he, hengine]
    decide +kernel
  have hquiet : ∀ e ∈ [("note", Function.record "f")], e.2.Quiet := by
    intro e he
    rw [List.mem_singleton.1 he]
    exact trivial
  have hbrings : ∀ s ∈ [Step.addOperator (.str "~") (some (.record "g")) (.int 3) none .none false],
      s.Brings Function.Quiet ∧ s.GivesWhole := by
    intro s hs
    rw [List.mem_singleton.1 hs]
    refine ⟨⟨?_, by simp⟩, fun _ => ⟨3, rfl⟩, fun h => absurd h (by simp)⟩
    intro f hf
    rw [← Option.some.inj hf]
    exact trivial
  have hstandard : Precedence.Source.IsData .standard := trivial
  have hdefault : OperatorSource.Every Function.Quiet (.datum .none) := trivial
  obtain ⟨htables, -, hcontained⟩ := solve_contained hstandard hdefault hquiet hc hbrings he
    "note(x) ~ y" hr
  have htame : ∀ i, .called i ∈ report.events →
      ∀ f, i.callee.apply i.args = .error f → f.IsTame := by
    intro i hi f happly
    have hrecord := List.all_eq_true.1 hrecords _ hi
    obtain ⟨callee, args⟩ := i
    cases callee with
    | record tag => exact absurd happly (by simp [Function.apply])
    | native _ | script _ | inert _ =>
      exact absurd hrecord (by simp [Event.record?, Event.mark?, Invocation.mark?])
  obtain ⟨v, hv⟩ | ⟨err, herr, hlexical, hgrammar⟩ := hcontained htame
  · rw [Report.error?, hv] at hfailed
    exact absurd hfailed (by simp)
  · refine ⟨c, e, report, e', err, hc, he, hr, htables, herr, fun h => ?_, fun h => ?_⟩
    · rw [freshTree, hlexical h] at htokens
      exact absurd htokens Bool.false_ne_true
    · obtain ⟨ts, hts, hparse⟩ := hgrammar h
      rw [freshTree, hts] at htokens
      rw [show (Except.ok ts >>= fun ts => e.freshParse ts (some "note(x) ~ y"))
        = .error (.error err) from hparse] at htokens
      exact absurd htokens Bool.false_ne_true

end Engine

end Reckon
