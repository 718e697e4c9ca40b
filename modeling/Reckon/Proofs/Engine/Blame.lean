import Reckon.Proofs.Engine.Steady
import Reckon.Proofs.Expr.Failing
/-
  Whose text an error shows. An engine has one evaluation in progress. If a function that is called
  begins another one, that one takes its place and stays there when it is over, so the nodes of the
  first tree that fail later show the text of the other (`Engine.solve_blames_other`).

  To say which text that is, a run is carried out with a diary that lists the texts of the
  evaluations that have begun (`Diary`). Nothing else is different: what a run comes to with a
  diary, it comes to without, and the text that errors show is always the one that was noted last
  (`Diary.noted_perform`, `Diary.noted_invoke`). So a node that fails shows the text of the
  evaluation that has begun last, up to the origin of its failure (`Diary.Blames.shows_last`). It is
  the text that is solved if no other evaluation has begun, as when all that functions ask for is
  recalled.
-/
namespace Reckon

/-- An engine at work with the texts of the evaluations that have begun, the last one first. -/
structure Diary where
  world : World
  begun : List (Option String)

namespace Diary

/-- An evaluation begins. -/
def begin (d : Diary) (source : Option String) : Diary :=
  ⟨{ d.world with engine := d.world.engine.beginEvaluation source }, source :: d.begun⟩

/-- A computation that begins no evaluation. -/
def silent {α : Type} (m : Run α) : EStateM Failure Diary α := fun d =>
  match m d.world with
  | .ok a world => .ok a { d with world }
  | .error f world => .error f { d with world }

/-- The host of an engine at work, with a diary. -/
def host (invoke : Function → List Value → EStateM Failure Diary Value) : Host Diary where
  scope d := d.world.engine.scope
  call f args := do
    silent (Session.emit (.called ⟨f, args⟩))
    invoke f args

/-- The value of a tree, by a new evaluation. -/
def compute (invoke : Function → List Value → EStateM Failure Diary Value) (expr : Expr)
    (source : Option String) : EStateM Failure Diary Value := fun d =>
  match Evaluation.eval (host invoke) expr (d.begin source) with
  | .ok v d => .ok v { d with world := Session.remembering d.world expr v }
  | .error f d => .error f d

/-- The value of a tree. -/
def evaluate (invoke : Function → List Value → EStateM Failure Diary Value) (expr : Expr)
    (source : Option String) : EStateM Failure Diary Value := fun d =>
  match Session.recalled? expr d.world.engine with
  | some (v, engine) => .ok v { d with world := { d.world with engine } }
  | none => compute invoke expr source d

/-- The value of a text. -/
def solve (invoke : Function → List Value → EStateM Failure Diary Value) (expression : Datum) :
    EStateM Failure Diary Value := do
  let expr ← silent (Session.tree expression)
  evaluate invoke expr (Session.sourceOf expression)

/-- One step. Where nothing is evaluated, nothing is noted. -/
def perform (invoke : Function → List Value → EStateM Failure Diary Value) :
    Step → EStateM Failure Diary Answer
  | .solve expression => do
    let v ← solve invoke expression
    pure (.value v)
  | .evaluate expr source => do
    let v ← evaluate invoke expr source
    pure (.value v)
  | s => silent (Session.perform Session.answer s)

/-- Steps one after the other. -/
def performAll (run : Step → EStateM Failure Diary Answer) :
    List Step → Answer → EStateM Failure Diary Answer
  | [], last => pure last
  | s :: ss, _ => do
    let answer ← run s
    performAll run ss answer

/-- Carries out a call. -/
def invoke : (depth : Nat) → Function → List Value → EStateM Failure Diary Value
  | depth + 1, .script steps, _ => do
    let answer ← performAll (perform (invoke depth)) steps .nothing
    pure answer.toValue
  | 0, .script _, _ => silent (Session.fault .nestedTooDeep)
  | _, f, args => silent (Session.answer f args)

/-- The diary of an engine at work. Errors show the text that was noted last. What was noted first
stays. -/
structure Tells (first : List (Option String)) (d : Diary) (w : World) : Prop where
  world : d.world = w
  text : w.engine.text = d.begun.headD none
  first : first <:+ d.begun

/-- A computation with a diary comes to what it comes to without, and goes on with the diary. -/
def Noted {α : Type} (m' : EStateM Failure Diary α) (m : Run α) : Prop :=
  ∀ first d w, Tells first d w → Agree (Tells first) Eq (m' d) (m w)

variable {α β : Type} {first : List (Option String)} {d : Diary} {w : World}

theorem Tells.begin (h : Tells first d w) (source : Option String) :
    Tells first (d.begin source) { w with engine := w.engine.beginEvaluation source } where
  world := by
    rw [Diary.begin, h.world]
  text := rfl
  first := h.first.trans (List.suffix_cons _ _)

theorem Tells.of_steady (h : Tells first d w) {w' : World}
    (htext : w'.engine.text = w.engine.text) : Tells first { d with world := w' } w' :=
  ⟨rfl, htext.trans h.text, h.first⟩

theorem noted_pure (a : α) : Noted (pure a) (pure a) := fun _ _ _ h => ⟨rfl, h⟩

theorem Noted.bind {m' : EStateM Failure Diary α} {m : Run α}
    {k' : α → EStateM Failure Diary β} {k : α → Run β} (hm : Noted m' m)
    (hk : ∀ a, Noted (k' a) (k a)) : Noted (m' >>= k') (m >>= k) :=
  fun first d w h => (hm first d w h).bind fun a d' w' h' => hk a first d' w' h'

/-- What leaves the text alone needs no note. -/
theorem noted_silent {m : Run α} (hm : Session.Steady m) : Noted (silent m) m := by
  intro first d w h
  have htext := hm w
  unfold silent
  rw [h.world]
  cases hrun : m w with
  | ok a w' =>
    rw [hrun] at htext
    exact ⟨rfl, h.of_steady htext⟩
  | error f w' =>
    rw [hrun] at htext
    exact ⟨rfl, h.of_steady htext⟩

section

variable {invoke' : Function → List Value → EStateM Failure Diary Value}
  {invoke : Function → List Value → Run Value}

theorem noted_call (h : ∀ f args, Noted (invoke' f args) (invoke f args)) (f : Function)
    (args : List Value) : Noted ((host invoke').call f args) ((Session.host invoke).call f args) :=
  (noted_silent (Session.steady_emit _)).bind fun _ => h f args

theorem alike_host (h : ∀ f args, Noted (invoke' f args) (invoke f args))
    (first : List (Option String)) :
    Evaluation.Alike (host invoke') (Session.host invoke) id (Tells first) Eq where
  scope := by
    rintro d w ⟨rfl, -, -⟩
    exact ⟨rfl, rfl, rfl⟩
  call args _ _ h₁ := noted_call h _ args first _ _ h₁
  node := by
    rintro d w _ _ _ ⟨rfl, -, -⟩
    rfl
  operator := by
    rintro d w _ _ _ ⟨rfl, -, -⟩
    rfl
  function := by
    rintro d w _ _ _ ⟨rfl, -, -⟩
    rfl

theorem noted_eval (h : ∀ f args, Noted (invoke' f args) (invoke f args)) (expr : Expr) :
    Noted (Evaluation.eval (host invoke') expr) (Evaluation.eval (Session.host invoke) expr) := by
  intro first d w hd
  have hagree := Evaluation.eval_agree (alike_host h first) expr hd
  rw [Expr.relocate_id] at hagree
  exact hagree

theorem noted_compute (h : ∀ f args, Noted (invoke' f args) (invoke f args)) (expr : Expr)
    (source : Option String) :
    Noted (compute invoke' expr source) (Session.compute invoke expr source) := by
  intro first d w hd
  unfold compute
  obtain ⟨v, d', w', hd', hw', htells⟩ | ⟨f, _, d', w', hd', hw', rfl, htells⟩ :=
    (noted_eval h expr first _ _ (hd.begin source)).cases
  · rw [hd', Session.compute_of_eq_ok hw']
    dsimp only
    rw [htells.world]
    exact ⟨rfl, htells.of_steady (Session.text_remembering w' expr v)⟩
  · rw [hd', Session.compute_of_eq_error hw']
    exact ⟨rfl, htells⟩

theorem noted_evaluate (h : ∀ f args, Noted (invoke' f args) (invoke f args)) (expr : Expr)
    (source : Option String) :
    Noted (evaluate invoke' expr source) (Session.evaluate invoke expr source) := by
  intro first d w hd
  unfold evaluate
  rw [Session.evaluate_eq, hd.world]
  rcases hr : Session.recalled? expr w.engine with _ | ⟨v, engine⟩
  · exact noted_compute h expr source first d w hd
  · exact ⟨rfl, hd.of_steady (Session.text_recalled hr)⟩

theorem noted_solve (h : ∀ f args, Noted (invoke' f args) (invoke f args)) (expression : Datum) :
    Noted (solve invoke' expression) (Session.solve invoke expression) :=
  (noted_silent (Session.steady_tree expression)).bind fun expr => noted_evaluate h expr _

/-- A step that evaluates nothing is noted by nothing. -/
theorem perform_of_not_evaluates (invoke' : Function → List Value → EStateM Failure Diary Value)
    (invoke : Function → List Value → Run Value) {s : Step} (hs : s.evaluates = false) :
    perform invoke' s = silent (Session.perform invoke s) := by
  cases s with
  | solve _ | evaluate _ _ => exact absurd hs (by simp [Step.evaluates])
  | _ => rfl

theorem noted_perform (h : ∀ f args, Noted (invoke' f args) (invoke f args)) (s : Step) :
    Noted (perform invoke' s) (Session.perform invoke s) := by
  cases hs : s.evaluates with
  | false =>
    rw [perform_of_not_evaluates invoke' invoke hs]
    exact noted_silent (Session.steady_perform invoke hs)
  | true =>
    cases s with
    | solve d => exact (noted_solve h d).bind fun v => noted_pure _
    | evaluate expr source => exact (noted_evaluate h expr source).bind fun v => noted_pure _
    | _ => exact absurd hs (by simp [Step.evaluates])

theorem noted_performAll {run' : Step → EStateM Failure Diary Answer} {run : Step → Run Answer}
    (h : ∀ s, Noted (run' s) (run s)) (ss : List Step) (last : Answer) :
    Noted (performAll run' ss last) (Session.performAll run ss last) := by
  induction ss generalizing last with
  | nil => exact noted_pure last
  | cons s ss ih => exact (h s).bind ih

end

theorem noted_answer (f : Function) (args : List Value) :
    Noted (silent (Session.answer f args)) (Session.answer f args) := by
  refine noted_silent fun w => ?_
  unfold Session.answer
  cases f.apply args with
  | ok v => rfl
  | error e => rfl

/-- A diary can be kept of calls, however deep the steps in them are nested. -/
theorem noted_invoke (depth : Nat) (f : Function) (args : List Value) :
    Noted (invoke depth f args) (Session.invoke depth f args) := by
  induction depth generalizing f args with
  | zero =>
    cases f with
    | script steps => exact noted_silent (Session.steady_fault _)
    | native _ | record _ | inert _ => exact noted_answer _ args
  | succ depth ih =>
    cases f with
    | script steps =>
      refine (noted_performAll (noted_perform ih) steps .nothing).bind fun answer => ?_
      exact noted_pure answer.toValue
    | native _ | record _ | inert _ => exact noted_answer _ args

/-! ## Blame -/

theorem Tells.self (h : Tells first d w) : Tells first d d.world := by
  rw [h.world]
  exact h

/-- When an evaluation begins, the diary starts. -/
theorem tells_begin (w : World) (source : Option String) :
    Tells [source] (begin ⟨w, []⟩ source)
      { w with engine := w.engine.beginEvaluation source } :=
  ⟨rfl, rfl, List.suffix_rfl⟩

/-- Where a node fails, the diary has been kept. -/
theorem Tells.of_fails {depth : Nat} {expr : Expr} {f : Failure} {q : Diary}
    (h : Tells first d w) (hf : Evaluation.Fails (host (invoke depth)) expr d f (some q)) :
    Tells first q q.world := by
  refine hf.keeps (P := fun d => Tells first d d.world) (fun g args d h => ?_) h.self
  exact (noted_call (noted_invoke depth) g args first d d.world h).left.self

/-- The evaluation of the tree of a text begins and fails. The origin of a failure of a node is the
diary up to there. -/
def Blames (w : World) (text : String) (expr : Expr) (f : Failure) (o : Option Diary) : Prop :=
  Evaluation.Fails (host (invoke Session.maxNesting)) expr (begin ⟨w, []⟩ (some text)) f o

variable {text : String} {expr : Expr} {f : Failure} {q : Diary}

/-- An evaluation that fails has something to blame. -/
theorem exists_blames {w' : World}
    (hrun : Session.evaluate (Session.invoke Session.maxNesting) expr (some text) w
      = .error f w') : ∃ o, Blames w text expr f o := by
  have heval := Session.eval_of_evaluate_eq_error hrun
  have hagree := noted_eval (noted_invoke Session.maxNesting) expr _ _ _ (tells_begin w (some text))
  rw [heval] at hagree
  obtain ⟨_, _, _, -, hok, -⟩ | ⟨_, f', d', _, hd', hf', rfl, -⟩ := hagree.cases
  · exact absurd hok (by simp)
  · rw [(EStateM.Result.error.inj hf').1]
    exact Evaluation.exists_fails expr hd'

/-- A node that fails shows the text of the evaluation that has begun last, which is its own unless
calls have begun others. -/
theorem Blames.shows_last (h : Blames w text expr f (some q)) :
    ∃ err others, f = .error err ∧ q.begun = others ++ [some text]
      ∧ err.expression = others.headD (some text) := by
  have htells := (tells_begin w (some text)).of_fails h
  obtain ⟨others, hothers⟩ := htells.first
  obtain ⟨err, herr, hshows⟩ := Evaluation.Fails.shows h
  refine ⟨err, others, herr, hothers.symm, ?_⟩
  have hlast : err.expression = q.begun.headD none :=
    hshows.trans (q.world.engine.scope_source.trans htells.text)
  rw [hlast, ← hothers]
  cases others with
  | nil => rfl
  | cons _ _ => rfl

end Diary

/-- The error that a step has ended with. -/
def Report.error? (r : Report) : Option Error :=
  match r.result with
  | .error (.error err) => some err
  | _ => none

theorem Report.result_of_error? {r : Report} {err : Error} (h : r.error? = some err) :
    r.result = .error (.error err) := by
  unfold error? at h
  split at h
  · next hresult => rw [hresult, Option.some.inj h]
  · exact absurd h (by simp)

namespace Engine

variable {limits : Limits} {caching : Bool} {cacheSize operators : Datum}
  {levels : Precedence.Source} {bindings : List (String × Value)}
  {operatorFunctions : OperatorSource} {functions : List (String × Function)} {c : Change}

/-- Take any engine that is made and used, and a text that it fails to solve. Either the text has
no tree, or the evaluation of its tree fails, in one of the ways in which evaluations fail. If it is
a node of the tree that fails, then the failure is an error that shows the text of the evaluation
that has begun last. That is the text that is solved, unless a function that was called on the way
has begun another evaluation; a result that is recalled begins none. -/
theorem solve_blames (hc : create limits caching cacheSize operators levels bindings
    operatorFunctions functions = .ok c) (ss : List Step) {e : Engine}
    (he : e = (c.engine.steps ss).2) {text : String} {f : Failure}
    (hf : (e.step (.solve (.str text))).1.result = .error f) :
    e.freshTree text = .error f
      ∨ ∃ expr w, e.freshTree text = .ok expr ∧ Session.tree (.str text) ⟨e, []⟩ = .ok expr w
        ∧ (∃ o, Diary.Blames w text expr f o)
        ∧ ∀ q, Diary.Blames w text expr f (some q) →
          ∃ err others, f = .error err ∧ q.begun = others ++ [some text]
            ∧ err.expression = others.headD (some text) := by
  have hrooted : e.Rooted := by
    rw [he]
    exact invariant_rooted.steps (rooted_create hc) (rooted_create hc) ss
  obtain ⟨w', hrun⟩ := exists_run_of_error hf
  obtain hsolve | ⟨v, w₁, -, hpure⟩ := exists_of_run_eq_error hrun
  case inr => exact absurd hpure (by simp [pure, EStateM.pure])
  obtain ⟨w₁, -, -, hlands⟩ := Session.tree_lands (w := ⟨e, []⟩) hrooted text
  obtain htree | ⟨expr, w, htree, hevaluate⟩ := exists_of_run_eq_error hsolve
  · left
    exact eq_of_outcome_eq_error (hlands.symm.trans htree)
  · right
    have hfresh := eq_of_outcome_eq_ok (hlands.symm.trans htree)
    exact ⟨expr, w, hfresh, htree, Diary.exists_blames hevaluate, fun q hq => hq.shows_last⟩

/-- An engine with a function that solves `1`, which has been solved before. The function is called,
recalls the result, and then `y` is looked up in vain: the error shows the text that is solved. -/
theorem solve_blames_recalled :
    ∃ c e err, create {} true (.int 4) .none .standard [] (.datum .none)
        [("f", .script [.solve (.str "1")])] = .ok c
      ∧ e = (c.engine.steps [.solve (.str "1")]).2
      ∧ (e.step (.solve (.str "f() + y"))).1.result = .error (.error err)
      ∧ err.problem = .undefinedVariable "y" ∧ err.expression = some "f() + y"
      ∧ ∃ expr w, e.freshTree "f() + y" = .ok expr
        ∧ Session.tree (.str "f() + y") ⟨e, []⟩ = .ok expr w
        ∧ (∃ o, Diary.Blames w "f() + y" expr (.error err) o)
        ∧ ∀ q, Diary.Blames w "f() + y" expr (.error err) (some q) →
          ∃ err' others, Failure.error err = .error err' ∧ q.begun = others ++ [some "f() + y"]
            ∧ err'.expression = others.headD (some "f() + y") := by
  obtain ⟨c, hc⟩ : ∃ c, create {} true (.int 4) .none .standard [] (.datum .none)
      [("f", .script [.solve (.str "1")])] = .ok c := ⟨_, rfl⟩
  obtain ⟨e, he⟩ : ∃ e, e = (c.engine.steps [.solve (.str "1")]).2 := ⟨_, rfl⟩
  have hengine := (Except.ok.inj hc).symm
  have herror : (e.step (.solve (.str "f() + y"))).1.error? = some
      { problem := .undefinedVariable "y", position := some 6, expression := some "f() + y" } := by
    rw [he, hengine]
    decide +kernel
  have htree : (e.freshTree "f() + y").isOk = true := by
    rw [he, hengine]
    decide +kernel
  have hresult := Report.result_of_error? herror
  obtain hfresh | hblames := solve_blames hc _ he hresult
  · rw [hfresh] at htree
    exact absurd htree Bool.false_ne_true
  · exact ⟨c, e, _, hc, he, hresult, rfl, rfl, hblames⟩

/-- On the same engine, with nothing solved before, the function begins an evaluation of its own.
It is the node `y` of the tree that fails, and the error shows `1`, in which there is no `y`. -/
theorem solve_blames_other :
    ∃ c w q err, create {} true (.int 4) .none .standard [] (.datum .none)
        [("f", .script [.solve (.str "1")])] = .ok c
      ∧ (c.engine.step (.solve (.str "f() + y"))).1.result = .error (.error err)
      ∧ Session.tree (.str "f() + y") ⟨c.engine, []⟩
        = .ok (.binary "+" (.call "f" [] 0) (.var "y" 6) 4) w
      ∧ Diary.Blames w "f() + y" (.binary "+" (.call "f" [] 0) (.var "y" 6) 4) (.error err) (some q)
      ∧ q.begun = [some "1", some "f() + y"]
      ∧ err = { problem := .undefinedVariable "y", position := some 6, expression := some "1" } := by
  obtain ⟨c, hc⟩ : ∃ c, create {} true (.int 4) .none .standard [] (.datum .none)
      [("f", .script [.solve (.str "1")])] = .ok c := ⟨_, rfl⟩
  have hengine := (Except.ok.inj hc).symm
  have herror : (c.engine.step (.solve (.str "f() + y"))).1.error? = some
      { problem := .undefinedVariable "y", position := some 6, expression := some "1" } := by
    rw [hengine]
    decide +kernel
  have hparsed : (answer? (Session.tree (.str "f() + y") ⟨c.engine, []⟩)).map (·.1)
      = some (.binary "+" (.call "f" [] 0) (.var "y" 6) 4) := by
    rw [hengine]
    decide +kernel
  obtain ⟨expr, w, htree, rfl⟩ := exists_of_answer? hparsed
  have hw : left (Session.tree (.str "f() + y") ⟨c.engine, []⟩) = w := by rw [htree, left]
  have hplus : (w.engine.tables.operatorFunctions.binary.find? "+").isSome = true := by
    rw [← hw, hengine]
    decide +kernel
  obtain ⟨g, hplus⟩ := Option.isSome_iff_exists.1 hplus
  have hcalled : (answer? (Evaluation.eval (Diary.host (Diary.invoke Session.maxNesting))
      (.call "f" [] 0) (Diary.begin ⟨w, []⟩ (some "f() + y")))).map (fun x =>
        (x.2.begun, x.2.world.engine.scope.source,
          (x.2.world.engine.scope.bindings.find? "y").isNone))
      = some ([some "1", some "f() + y"], some "1", true) := by
    rw [← hw, hengine]
    decide +kernel
  obtain ⟨v, q, hcalled, hseen⟩ := exists_of_answer? hcalled
  obtain ⟨hbegun, hseen⟩ := Prod.mk.inj hseen
  obtain ⟨hsource, hy⟩ := Prod.mk.inj hseen
  have hfails : Evaluation.Fails (Diary.host (Diary.invoke Session.maxNesting)) (.var "y" 6) q
      (Evaluation.nodeError (Diary.host (Diary.invoke Session.maxNesting)) q
        (.undefinedVariable "y") 6) (some q) := .var (Option.isNone_iff_eq_none.1 hy)
  have hnode : Evaluation.nodeError (Diary.host (Diary.invoke Session.maxNesting)) q
      (.undefinedVariable "y") 6 = .error
        { problem := .undefinedVariable "y", position := some 6, expression := some "1" } := by
    rw [← hsource]
    rfl
  rw [hnode] at hfails
  exact ⟨c, w, q, _, hc, Report.result_of_error? herror, htree,
    .rightOperand hplus hcalled hfails, hbegun, rfl⟩

end Engine

end Reckon
