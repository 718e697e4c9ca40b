import Reckon.Proofs.Engine.Locality
import Reckon.Proofs.Expr.Unplaced
/-
  Layout. An evaluation of a tree is the same for all trees that differ in positions only, on the
  engine, too: what happens, what is remembered and what is left is the same, and what it comes to
  is the same but for the place that a failure reports (`Engine.step_evaluate_bare`). Together with
  parsing, which does not look at positions either, this means that a text may be laid out in any
  way that leaves its tokens the same (`Engine.SameWords`): solving it comes to the same, whatever
  layout has been solved before (`Engine.positions_ignored`).
-/
namespace Reckon

/-- A report without the place that a failure gives. -/
def Report.bare (r : Report) : Report := ⟨r.result.mapError Failure.bare, r.events⟩

namespace Session

variable {w w' : World}

/-- Two engines at work to which the same has happened, and which are the same as soon as no
evaluation is in progress. -/
structure Twins (w w' : World) : Prop where
  rest : w.engine.rest = w'.engine.rest
  events : w.events = w'.events

/-- What is remembered of a tree is remembered of all trees that are the same but for positions. -/
theorem recalled?_bare (expr : Expr) (e : Engine) : recalled? expr.bare e = recalled? expr e := by
  unfold recalled? recallResult
  rw [expr.bare_bare]

theorem rest_remembering (w : World) (expr : Expr) (v : Value) :
    (remembering w expr v).engine.rest = if w.engine.rest.caching = true then
        { w.engine.rest with results := w.engine.rest.results.set expr.bare v }
      else w.engine.rest := by
  have hcaching : w.engine.rest.caching = w.engine.caching := rfl
  unfold remembering
  rw [hcaching]
  split
  · rfl
  · rfl

theorem Twins.remembering (h : Twins w w') (expr : Expr) (v : Value) :
    Twins (remembering w expr v) (remembering w' expr.bare v) where
  rest := by rw [rest_remembering, rest_remembering, h.rest, expr.bare_bare]
  events := by rw [remembering_events, remembering_events, h.events]

/-- An evaluation that has begun calls the same functions, wherever the nodes are. -/
theorem begun_bare (hq : w.engine.tables.Every Function.Quiet) (depth : Nat) (expr : Expr)
    (source : Option String) :
    Agree Twins (fun f f' => f.bare = f'.bare)
      (Evaluation.eval (host (invoke depth)) expr
        { w with engine := w.engine.beginEvaluation source })
      (Evaluation.eval (host (invoke depth)) expr.bare
        { w with engine := w.engine.beginEvaluation none }) := by
  have hquiet : ∀ source, (w.engine.beginEvaluation source).scope.Quiet := fun source _ hf =>
    hq.scope Function.quiet_native source hf
  have hbare : (expr.evaluate (w.engine.beginEvaluation source).scope).bare
      = (expr.bare.evaluate (w.engine.beginEvaluation none).scope).bare :=
    expr.evaluate_bare ⟨rfl, rfl, rfl⟩
  rw [eval_eq (hquiet source) depth expr, eval_eq (hquiet none) depth expr.bare,
    Traced.calls_of_bare hbare]
  obtain ⟨v, hr, hr'⟩ | ⟨f, f', hr, hr', hfailure⟩ := cases_of_mapError_eq (Traced.mk.inj hbare).1
  · rw [hr, hr']
    exact ⟨rfl, rfl, rfl⟩
  · rw [hr, hr']
    exact ⟨hfailure, rfl, rfl⟩

theorem compute_bare (hq : w.engine.tables.Every Function.Quiet) (depth : Nat) (expr : Expr)
    (source : Option String) :
    Agree Twins (fun f f' => f.bare = f'.bare) (compute (invoke depth) expr source w)
      (compute (invoke depth) expr.bare none w) := by
  obtain ⟨v, w₁, w₂, hrun, hrun', htwins⟩ | ⟨f, f', w₁, w₂, hrun, hrun', hfailure, htwins⟩ :=
    (begun_bare hq depth expr source).cases
  · rw [compute_of_eq_ok hrun, compute_of_eq_ok hrun']
    exact ⟨rfl, htwins.remembering expr v⟩
  · rw [compute_of_eq_error hrun, compute_of_eq_error hrun']
    exact ⟨hfailure, htwins⟩

/-- An evaluation of a tree goes as one of the tree without positions. -/
theorem evaluate_bare (hq : w.engine.tables.Every Function.Quiet) (depth : Nat) (expr : Expr)
    (source : Option String) :
    Agree Twins (fun f f' => f.bare = f'.bare) (evaluate (invoke depth) expr source w)
      (evaluate (invoke depth) expr.bare none w) := by
  rw [evaluate_eq, evaluate_eq, recalled?_bare]
  cases recalled? expr w.engine with
  | none => exact compute_bare hq depth expr source
  | some r => exact ⟨rfl, rfl, rfl⟩

end Session

namespace Engine

variable {e : Engine}

theorem step_of_twins {s s' : Step} (h : Agree Session.Twins (fun f f' => f.bare = f'.bare)
    (Session.run s ⟨e, []⟩) (Session.run s' ⟨e, []⟩)) :
    (e.step s).1.bare = (e.step s').1.bare ∧ (e.step s).2 = (e.step s').2 := by
  obtain ⟨a, w, w', hrun, hrun', htwins⟩ | ⟨f, f', w, w', hrun, hrun', hbare, htwins⟩ := h.cases
  · rw [step_of_ok hrun, step_of_ok hrun', htwins.events]
    exact ⟨rfl, htwins.rest⟩
  · rw [step_of_error hrun, step_of_error hrun', htwins.events]
    refine ⟨?_, htwins.rest⟩
    show (⟨.error f.bare, w'.events⟩ : Report) = ⟨.error f'.bare, w'.events⟩
    rw [hbare]

/-- To evaluate a tree is to evaluate it without positions, with the same calls, and with the same
left of the engine. Only the place that a failure reports is another one. -/
theorem step_evaluate_bare (hq : e.tables.Every Function.Quiet) (expr : Expr)
    (source : Option String) :
    (e.step (.evaluate expr source)).1.bare = (e.step (.evaluate expr.bare none)).1.bare
      ∧ (e.step (.evaluate expr source)).2 = (e.step (.evaluate expr.bare none)).2 :=
  step_of_twins ((Session.evaluate_bare (w := ⟨e, []⟩) hq Session.maxNesting expr source).bind
    fun _ _ _ htwins => .pure htwins)

/-- Evaluating a tree on a sound engine comes to its fresh value, whatever is remembered, and leaves
the settings. -/
theorem Sound.step_evaluate (h : e.Sound) (expr : Expr) (source : Option String) :
    (e.step (.evaluate expr source)).1.result = (e.freshValue expr source).map Answer.value
      ∧ (e.step (.evaluate expr source)).2.SameSettings e :=
  step_of_lands rfl
    (Session.evaluate_lands (w := ⟨e, []⟩) h.faithful h.quiet Session.maxNesting expr source)

/-! ## Texts -/

/-- Texts whose tokens are the same but for positions. -/
def SameWords (e : Engine) (text text' : String) : Prop :=
  ∃ ts ts', e.freshTokens text = .ok ts ∧ e.freshTokens text' = .ok ts'
    ∧ ts.map Token.word = ts'.map Token.word

theorem freshValue_of_same {x x' : Expr} (h : x.Same x') (source source' : Option String) :
    (e.freshValue x source).mapError Failure.bare
      = (e.freshValue x' source').mapError Failure.bare := by
  have hscopes : Scope.Matches
      ⟨e.tables.bindings, e.tables.operatorFunctions, e.tables.functions, source⟩
      ⟨e.tables.bindings, e.tables.operatorFunctions, e.tables.functions, source'⟩ :=
    ⟨rfl, rfl, rfl⟩
  exact congrArg Traced.result (Expr.evaluate_of_same h hscopes)

theorem SameWords.freshSolution {text text' : String} (h : e.SameWords text text') :
    (e.freshSolution text).mapError Failure.bare
      = (e.freshSolution text').mapError Failure.bare := by
  obtain ⟨ts, ts', hts, hts', hwords⟩ := h
  have htree : ∀ {text ts}, e.freshTokens text = .ok ts →
      e.freshTree text = e.freshParse ts (some text) := by
    intro text ts h
    unfold freshTree
    rw [h]
    rfl
  unfold Engine.freshSolution
  rw [htree hts, htree hts']
  unfold freshParse
  have hparse : Parser.Same (Parser.parse e.tables.precedence e.limits (some text) ts)
      (Parser.parse e.tables.precedence e.limits (some text') ts') := Parser.parse_of_words hwords
  obtain ⟨⟨x, x', hx, hx', hsame⟩ | ⟨f, f', hf, hf', hbare⟩, -⟩ := hparse
  · rw [hx, hx']
    exact freshValue_of_same hsame _ _
  · rw [hf, hf']
    exact congrArg Except.error hbare

variable {limits : Limits} {caching : Bool} {cacheSize operators : Datum}
  {levels : Precedence.Source} {bindings : List (String × Value)}
  {operatorFunctions : OperatorSource} {functions : List (String × Function)} {c : Change}

/-- Positions decide nothing. Tokens of the same kinds and texts parse to trees that differ in
positions only, or fail alike. Trees that differ in positions only evaluate to the same value after
the same calls, or they fail alike after the same calls; on any engine that is made and used with
quiet functions they cannot be told apart, and what is remembered of one answers for the other. So a
text may be laid out anew, as long as its tokens are the same, and comes to the same, also where the
other layout was solved before. -/
theorem positions_ignored (ho : operatorFunctions.Every Function.Quiet)
    (hf : ∀ entry ∈ functions, entry.2.Quiet)
    (hc : create limits caching cacheSize operators levels bindings operatorFunctions functions
      = .ok c) {ss : List Step} (hss : ∀ s ∈ ss, s.Brings Function.Quiet) {e : Engine}
    (he : e = (c.engine.steps ss).2) :
    (∀ (p : Precedence) (l : Limits) (source source' : Option String) (ts ts' : List Token),
        ts.map Token.word = ts'.map Token.word →
          Parser.Same (Parser.parse p l source ts) (Parser.parse p l source' ts'))
      ∧ (∀ x x' : Expr, x.Same x' →
          (∀ s s' : Scope, s.Matches s' → (x.evaluate s).bare = (x'.evaluate s').bare)
            ∧ ∀ source source' : Option String,
                (e.step (.evaluate x source)).1.bare = (e.step (.evaluate x' source')).1.bare
                  ∧ (e.step (.evaluate x source)).2 = (e.step (.evaluate x' source')).2
                  ∧ ((e.step (.evaluate x source)).2.step (.evaluate x' source')).1.result
                    = (e.step (.evaluate x' source')).1.result)
      ∧ ∀ text text' : String, e.SameWords text text' →
          (e.step (.solve (.str text))).1.result.mapError Failure.bare
              = (e.step (.solve (.str text'))).1.result.mapError Failure.bare
            ∧ ((e.step (.solve (.str text))).2.step (.solve (.str text'))).1.result
              = (e.step (.solve (.str text'))).1.result := by
  have hsound := (sound_create hc ho hf).steps hss
  rw [← he] at hsound
  refine ⟨fun _ _ _ _ _ _ hwords => Parser.parse_of_words hwords, fun x x' hsame => ?_,
    fun text text' hwords => ?_⟩
  · refine ⟨fun s s' hmatches => Expr.evaluate_of_same hsame hmatches, fun source source' => ?_⟩
    have hx := step_evaluate_bare hsound.quiet x source
    have hx' := step_evaluate_bare hsound.quiet x' source'
    rw [hsame] at hx
    refine ⟨hx.1.trans hx'.1.symm, hx.2.trans hx'.2.symm, ?_⟩
    have hafter := (hsound.step (s := .evaluate x source) trivial).step_evaluate x' source'
    rw [hafter.1, (hsound.step_evaluate x source).2.freshValue, (hsound.step_evaluate x' source').1]
  · have hafter := (hsound.step (s := .solve (.str text)) trivial).step_solve text'
    rw [hafter.1, (hsound.step_solve text).2.freshSolution, (hsound.step_solve text).1,
      (hsound.step_solve text').1]
    refine ⟨?_, rfl⟩
    obtain ⟨v, hv, hv'⟩ | ⟨f, f', hf, hf', hbare⟩ := cases_of_mapError_eq hwords.freshSolution
    · rw [hv, hv']
    · rw [hf, hf']
      exact congrArg Except.error hbare

/-- Two layouts of a division by zero, its trees, and a parenthesis that is not closed. -/
theorem positions_ignored_quotient :
    ∃ c e, create {} true (.int 4) .none .standard [("x", .int 3)] (.datum .none) [] = .ok c
      ∧ e = (c.engine.steps [.solve (.str "7/(x-3)")]).2
      ∧ Parser.Same
          (Parser.parse .default {} (some "(x") [⟨.parenthesis, "(", 0⟩, ⟨.identifier, "x", 1⟩])
          (Parser.parse .default {} none [⟨.parenthesis, "(", 4⟩, ⟨.identifier, "x", 9⟩])
      ∧ (e.step (.evaluate (.unary "-" (.var "x" 1) 0) (some "-x"))).1.bare
          = (e.step (.evaluate (.unary "-" (.var "x" 3) 1) none)).1.bare
      ∧ (e.step (.solve (.str "7/(x-3)"))).1.result.mapError Failure.bare
          = (e.step (.solve (.str " 7 / (x - 3)"))).1.result.mapError Failure.bare := by
  obtain ⟨c, hc⟩ : ∃ c, create {} true (.int 4) .none .standard [("x", .int 3)] (.datum .none) []
      = .ok c := ⟨_, rfl⟩
  obtain ⟨e, he⟩ : ∃ e, e = (c.engine.steps [.solve (.str "7/(x-3)")]).2 := ⟨_, rfl⟩
  have hengine := (Except.ok.inj hc).symm
  have hbefore : ∀ s ∈ [Step.solve (.str "7/(x-3)")], s.Brings Function.Quiet := by
    intro s hs
    rw [List.mem_singleton.1 hs]
    exact trivial
  have hdefault : OperatorSource.Every Function.Quiet (.datum .none) := trivial
  obtain ⟨hparse, hevaluate, hsolve⟩ :=
    positions_ignored hdefault (List.forall_mem_nil _) hc hbefore he
  refine ⟨c, e, hc, he, hparse _ _ _ _ _ _ (by decide), ?_, (hsolve _ _ ?_).1⟩
  · exact ((hevaluate _ _ (by decide)).2 _ _).1
  · refine ⟨[⟨.constant, "7", 0⟩, ⟨.operator, "/", 1⟩, ⟨.parenthesis, "(", 2⟩,
        ⟨.identifier, "x", 3⟩, ⟨.operator, "-", 4⟩, ⟨.constant, "3", 5⟩, ⟨.parenthesis, ")", 6⟩],
      [⟨.constant, "7", 1⟩, ⟨.operator, "/", 3⟩, ⟨.parenthesis, "(", 5⟩,
        ⟨.identifier, "x", 6⟩, ⟨.operator, "-", 8⟩, ⟨.constant, "3", 10⟩, ⟨.parenthesis, ")", 11⟩],
      ?_, ?_, by decide⟩
    · rw [he, hengine]
      exact eq_ok_of_toOption (by decide +kernel)
    · rw [he, hengine]
      exact eq_ok_of_toOption (by decide +kernel)

end Engine

end Reckon
