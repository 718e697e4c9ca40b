import Reckon.Proofs.Engine.Remembering
/-
  Remembering changes no answer. Two engines are linked when they have the same settings, only quiet
  functions, and remember nothing but what they would find anew; whether they remember anything, and
  how much, is left open. A step with a text answers alike on linked engines and leaves them linked
  (`Engine.Linked.step`), hence so do steps one after the other (`Engine.Linked.steps`). An engine
  that remembers starts out linked with one that does not (`Engine.create_linked`).
-/
namespace Reckon

namespace Engine

/-- An engine that remembers nothing. -/
theorem faithful_clearCaches (e : Engine) : e.clearCaches.Faithful where
  tokens := (Rooted.clearCaches e).tokens
  trees := (Rooted.clearCaches e).trees
  results := by
    intro key v hm
    exact absurd hm List.not_mem_nil

theorem Faithful.changedIn {e e' : Engine} (h : e.Faithful) {a : Aim} (hc : e.ChangedIn a e') :
    e'.Faithful where
  tokens := (h.rooted.changedIn hc).tokens
  trees := (h.rooted.changedIn hc).trees
  results := by
    intro key v hm
    rw [hc.results] at hm
    exact absurd hm List.not_mem_nil

/-! ## Linked engines -/

/-- Engines that differ at most in what they remember, none of it wrong. -/
structure Linked (e e' : Engine) : Prop where
  same : e.SameSettings e'
  left : e.Faithful
  right : e'.Faithful
  quiet : e.tables.Every Function.Quiet

namespace Linked

variable {e e' : Engine}

theorem clearCaches (h : e.Linked e') : e.clearCaches.Linked e'.clearCaches where
  same := ⟨h.same.limits, h.same.tables, h.same.trie⟩
  left := faithful_clearCaches e
  right := faithful_clearCaches e'
  quiet := h.quiet

theorem rest (h : e.Linked e') : e.rest.Linked e'.rest where
  same := ⟨h.same.limits, h.same.tables, h.same.trie⟩
  left := ⟨h.left.tokens, h.left.trees, h.left.results⟩
  right := ⟨h.right.tokens, h.right.trees, h.right.results⟩
  quiet := h.quiet

/-- The same change leaves linked engines linked. -/
theorem changedIn (h : e.Linked e') {a : Aim} {e₁ e₁' : Engine} (hc : e.ChangedIn a e₁)
    (hc' : e'.ChangedIn a e₁') (ht : e₁.tables = e₁'.tables)
    (hq : e₁.tables.Every Function.Quiet) : e₁.Linked e₁' where
  same := by
    refine ⟨?_, ht, ?_⟩
    · rw [hc.limits, hc'.limits, h.same.limits]
    · rw [hc.trie, hc'.trie, ht, h.same.trie]
  left := h.left.changedIn hc
  right := h.right.changedIn hc'
  quiet := hq

theorem announce (h : e.Linked e') (name : String) (binary unary : Option Level)
    (isRight : Bool) :
    (e.announce name binary unary isRight).Linked (e'.announce name binary unary isRight) := by
  have hword : (e.setOperators (Session.withOperator e.tables.operators name)).engine.Linked
      (e'.setOperators (Session.withOperator e'.tables.operators name)).engine := by
    refine h.changedIn (e.changedIn_setOperators _) (e'.changedIn_setOperators _) ?_
      ⟨h.quiet.operatorFunctions, h.quiet.functions⟩
    show ({ e.tables with operators := Session.withOperator e.tables.operators name } : Tables)
      = { e'.tables with operators := Session.withOperator e'.tables.operators name }
    rw [h.same.tables]
  refine hword.changedIn (changedIn_setPrecedence _ _) (changedIn_setPrecedence _ _) ?_
    ⟨h.quiet.operatorFunctions, h.quiet.functions⟩
  show e.tables.announce name binary unary isRight = e'.tables.announce name binary unary isRight
  rw [h.same.tables]

theorem setOperatorFunctions (h : e.Linked e') {functions : OperatorFunctions}
    (hq : functions.Every Function.Quiet) :
    (e.setOperatorFunctions functions).engine.Linked
      (e'.setOperatorFunctions functions).engine := by
  refine h.changedIn (e.changedIn_setOperatorFunctions _) (e'.changedIn_setOperatorFunctions _) ?_
    ⟨hq, h.quiet.functions⟩
  show ({ e.tables with operatorFunctions := functions } : Tables)
    = { e'.tables with operatorFunctions := functions }
  rw [h.same.tables]

end Linked

end Engine

/-- A use from outside: its expression is a text, and it brings in no functions that perform
steps. -/
def Step.Direct : Step → Prop
  | .solve expression => ∃ text, expression = .str text
  | .tokenize expression => ∃ text, expression = .str text
  | .parseText expression _ => ∃ text, expression = .str text
  | .setOperatorFunctions functions => functions.Quiet
  | .addOperator _ binary _ unary _ _ => (∀ f ∈ binary, f.Quiet) ∧ ∀ f ∈ unary, f.Quiet
  | .addFunction _ function => function.Quiet
  | .addFunctions functions => ∀ fs ∈ functions, ∀ e ∈ fs, e.2.Quiet
  | .setFunctions functions => ∀ fs ∈ functions, ∀ e ∈ fs, e.2.Quiet
  | .reset _ _ _ operatorFunctions functions =>
    operatorFunctions.Quiet ∧ ∀ e ∈ functions, e.2.Quiet
  | _ => True

/-- Quiet functions are brought in as they are. -/
theorem Step.Direct.brings {s : Step} (h : s.Direct) : s.Brings Function.Quiet := by
  match s with
  | .setOperatorFunctions functions => exact OperatorSource.every_of_quiet h
  | .reset .. => exact ⟨OperatorSource.every_of_quiet h.1, h.2⟩
  | .addOperator .. => exact h
  | .addFunction .. | .addFunctions _ | .setFunctions _ => exact h
  | .solve _ | .tokenize _ | .parse .. | .parseText .. | .evaluate .. | .setOperators _ |
    .setPrecedence _ | .addVariable .. | .addVariables _ | .setVariables _ | .removeVariable _ |
    .removeFunction _ | .clearCaches | .snapshot | .invalid _ => exact trivial

/-! ## Steps -/

namespace Session

variable {α β : Type}

/-- A computation that answers alike on linked engines and leaves them linked. -/
def Oblivious (m : Run α) : Prop :=
  ∀ w w' : World, w.engine.Linked w'.engine →
    Agree (fun w w' => w.engine.Linked w'.engine) Eq (m w) (m w')

theorem oblivious_pure (a : α) : Oblivious (pure a) := fun _ _ h => .pure h

theorem oblivious_fault (f : Fault) : Oblivious (fault f : Run α) := fun _ _ h => ⟨rfl, h⟩

theorem Oblivious.bind {m : Run α} {k : α → Run β} (hm : Oblivious m)
    (hk : ∀ a, Oblivious (k a)) : Oblivious (m >>= k) := by
  intro w w' h
  exact (hm w w' h).bind fun a w₁ w₁' h₁ => hk a w₁ w₁' h₁

/-- What comes to an outcome that settings decide is oblivious. -/
theorem oblivious_of_lands {m : Run α} {r : Engine → Except Failure α}
    (hr : ∀ e e', e.SameSettings e' → r e = r e')
    (hm : ∀ w, w.engine.Faithful → w.engine.tables.Every Function.Quiet →
      Lands Engine.Answered m w (r w.engine)) :
    Oblivious m := by
  intro w w' h
  have hquiet : w'.engine.tables.Every Function.Quiet := by
    rw [← h.same.tables]
    exact h.quiet
  obtain ⟨w₁, hw₁, -, hrun⟩ := hm w h.left h.quiet
  obtain ⟨w₁', hw₁', -, hrun'⟩ := hm w' h.right hquiet
  have hlinked : w₁.engine.Linked w₁'.engine := by
    refine ⟨(hw₁.same.trans h.same).trans hw₁'.same.symm, hw₁.faithful, hw₁'.faithful, ?_⟩
    rw [hw₁.same.tables]
    exact h.quiet
  rw [hrun, hrun', hr _ _ h.same]
  cases r w'.engine with
  | ok a => exact ⟨rfl, hlinked⟩
  | error f => exact ⟨rfl, hlinked⟩

/-! ### Questions -/

theorem oblivious_tokenize (text : String) : Oblivious (tokenize (.str text)) :=
  oblivious_of_lands (fun _ _ hs => hs.freshTokens text) fun _ h _ =>
    (tokenize_lands h.rooted text).mono fun _ he => he.answered h

theorem oblivious_parse (ts : List Token) (source : Option String) : Oblivious (parse ts source) :=
  oblivious_of_lands (fun _ _ hs => hs.freshParse ts source) fun _ h _ =>
    (parse_lands h.rooted ts source).mono fun _ he => he.answered h

theorem oblivious_evaluate (depth : Nat) (expr : Expr) (source : Option String) :
    Oblivious (evaluate (invoke depth) expr source) :=
  oblivious_of_lands (fun _ _ hs => hs.freshValue expr source) fun _ h hq =>
    evaluate_lands h hq depth expr source

theorem oblivious_solve (depth : Nat) (text : String) :
    Oblivious (solve (invoke depth) (.str text)) :=
  oblivious_of_lands (fun _ _ hs => hs.freshSolution text) fun _ h hq =>
    solve_lands h hq depth text

/-! ### Changes -/

/-- Settings are revised alike. -/
theorem oblivious_revise {invoke : Function → List Value → Run Value} {s : Step} {a : Aim}
    (ha : s.aim? = some a) (hs : s.Brings Function.Quiet) : Oblivious (perform invoke s) := by
  intro w w' h
  have hmakes := makes_revise invoke ha w
  have hmakes' := makes_revise invoke ha w'
  rw [← h.same.tables] at hmakes'
  cases hr : s.revise w.engine.tables with
  | error f =>
    rw [hr] at hmakes hmakes'
    rw [show perform invoke s w = .error (.fault f) w from hmakes,
      show perform invoke s w' = .error (.fault f) w' from hmakes']
    exact ⟨rfl, h⟩
  | ok t =>
    rw [hr] at hmakes hmakes'
    obtain ⟨w₁, hrun, rfl, hchanged, -⟩ := hmakes
    obtain ⟨w₁', hrun', ht, hchanged', -⟩ := hmakes'
    rw [hrun, hrun']
    exact ⟨rfl, h.changedIn hchanged hchanged' ht.symm
      (h.quiet.revise Function.quiet_native hs hr)⟩

theorem oblivious_addOperator (operator : Datum) {binary : Option Function} (binaryLevel : Datum)
    {unary : Option Function} (unaryLevel : Datum) (isRight : Bool)
    (hb : ∀ f ∈ binary, f.Quiet) (hu : ∀ f ∈ unary, f.Quiet) :
    Oblivious (addOperator operator binary binaryLevel unary unaryLevel isRight) := by
  intro w w' h
  cases haccept : accept operator binary binaryLevel unary unaryLevel with
  | error f =>
    rw [addOperator_refused haccept, addOperator_refused haccept]
    exact ⟨rfl, h⟩
  | ok name =>
    have hannounced := h.announce name (binary.map fun _ => binaryLevel)
      (unary.map fun _ => unaryLevel) isRight
    cases ho : w.engine.tables.operatorFunctions.extend name binary unary with
    | error f =>
      have ho' := ho
      rw [h.same.tables] at ho'
      obtain ⟨events, -, hrun⟩ := addOperator_announced haccept isRight ho
      obtain ⟨events', -, hrun'⟩ := addOperator_announced haccept isRight ho'
      rw [hrun, hrun']
      exact ⟨rfl, hannounced⟩
    | ok o =>
      have ho' := ho
      rw [h.same.tables] at ho'
      obtain ⟨events, -, hrun⟩ := addOperator_added haccept isRight ho
      obtain ⟨events', -, hrun'⟩ := addOperator_added haccept isRight ho'
      rw [hrun, hrun']
      exact ⟨rfl, hannounced.setOperatorFunctions (h.quiet.operatorFunctions.extend hb hu ho)⟩

/-- No step from outside tells linked engines apart. -/
theorem oblivious_perform {s : Step} (hs : s.Direct) (depth : Nat) :
    Oblivious (perform (invoke depth) s) := by
  cases ha : s.aim? with
  | some a => exact oblivious_revise ha hs.brings
  | none =>
    match s with
    | .solve _ =>
      obtain ⟨text, rfl⟩ := hs
      exact (oblivious_solve depth text).bind fun _ => oblivious_pure _
    | .tokenize _ =>
      obtain ⟨text, rfl⟩ := hs
      exact (oblivious_tokenize text).bind fun _ => oblivious_pure _
    | .parse none _ => exact oblivious_fault _
    | .parse (some ts) source => exact (oblivious_parse ts source).bind fun _ => oblivious_pure _
    | .parseText _ source =>
      obtain ⟨text, rfl⟩ := hs
      refine (oblivious_tokenize text).bind fun ts => ?_
      exact (oblivious_parse ts source).bind fun _ => oblivious_pure _
    | .evaluate expr source =>
      exact (oblivious_evaluate depth expr source).bind fun _ => oblivious_pure _
    | .addOperator operator binary binaryLevel unary unaryLevel isRight =>
      refine (oblivious_addOperator operator binaryLevel unaryLevel isRight hs.1 hs.2).bind ?_
      exact fun _ => oblivious_pure _
    | .clearCaches => exact fun _ _ h => ⟨rfl, h.clearCaches⟩
    | .snapshot =>
      intro w w' h
      show Agree _ _ (EStateM.Result.ok (Answer.snapshot ⟨w.engine.tables, w.engine.limits⟩) w)
        (EStateM.Result.ok (Answer.snapshot ⟨w'.engine.tables, w'.engine.limits⟩) w')
      rw [h.same.tables, h.same.limits]
      exact ⟨rfl, h⟩
    | .invalid cause => exact oblivious_fault cause

end Session

/-! ## Runs -/

namespace Engine

variable {e e' : Engine}

/-- A step from outside answers alike on linked engines and leaves them linked. -/
theorem Linked.step (h : e.Linked e') {s : Step} (hs : s.Direct) :
    (e.step s).1.result = (e'.step s).1.result ∧ (e.step s).2.Linked (e'.step s).2 := by
  have hagree := Session.oblivious_perform hs Session.maxNesting ⟨e, []⟩ ⟨e', []⟩ h
  unfold Engine.step Session.run
  obtain ⟨a, w, w', hw, hw', hlinked⟩ | ⟨f, _, w, w', hw, hw', rfl, hlinked⟩ := hagree.cases
  · rw [hw, hw']
    exact ⟨rfl, hlinked.rest⟩
  · rw [hw, hw']
    exact ⟨rfl, hlinked.rest⟩

/-- So do steps one after the other, failures among them. -/
theorem Linked.steps (h : e.Linked e') {ss : List Step} (hss : ∀ s ∈ ss, s.Direct) :
    (e.steps ss).1.map (·.result) = (e'.steps ss).1.map (·.result)
      ∧ (e.steps ss).2.Linked (e'.steps ss).2 := by
  induction ss generalizing e e' with
  | nil => exact ⟨rfl, h⟩
  | cons s ss ih =>
    obtain ⟨hresult, hnext⟩ := h.step (hss s (List.mem_cons_self ..))
    obtain ⟨hresults, hlast⟩ := ih hnext fun x hx => hss x (List.mem_cons_of_mem _ hx)
    refine ⟨?_, hlast⟩
    show (e.step s).1.result :: ((e.step s).2.steps ss).1.map (·.result)
      = (e'.step s).1.result :: ((e'.step s).2.steps ss).1.map (·.result)
    rw [hresult, hresults]

variable {limits : Limits} {cacheSize operators : Datum} {levels : Precedence.Source}
  {bindings : List (String × Value)} {operatorFunctions : OperatorSource}
  {functions : List (String × Function)} {c : Change}

/-- A new engine is linked with one that is made alike but for what it may remember. -/
theorem create_linked (ho : operatorFunctions.Quiet) (hf : ∀ e ∈ functions, e.2.Quiet)
    {caching : Bool} (hc : create limits caching cacheSize operators levels bindings
      operatorFunctions functions = .ok c) (caching' : Bool) :
    ∃ c', create limits caching' cacheSize operators levels bindings operatorFunctions functions
        = .ok c' ∧ c.engine.Linked c'.engine := by
  obtain ⟨size, tables, hsize, htables, rfl⟩ := create_eq_ok_iff.1 hc
  have hquiet :=
    Tables.every_read Function.quiet_native (OperatorSource.every_of_quiet ho) hf htables
  exact ⟨_, create_eq_ok_iff.2 ⟨size, tables, hsize, htables, rfl⟩, ⟨rfl, rfl, rfl⟩,
    faithful_clearCaches _, faithful_clearCaches _, hquiet⟩

/-- Remembering changes no answer. On a new engine that remembers, however little room it has, steps
from outside come to what they come to on one that is made alike and remembers nothing, failures
included; and whatever it remembers after them is what would be found anew. -/
theorem steps_remembering (ho : operatorFunctions.Quiet) (hf : ∀ e ∈ functions, e.2.Quiet)
    (hc : create limits true cacheSize operators levels bindings operatorFunctions functions
      = .ok c) {ss : List Step} (hss : ∀ s ∈ ss, s.Direct) :
    ∃ c', create limits false cacheSize operators levels bindings operatorFunctions functions
        = .ok c'
      ∧ (c.engine.steps ss).1.map (·.result) = (c'.engine.steps ss).1.map (·.result)
      ∧ (c.engine.steps ss).2.Faithful := by
  obtain ⟨c', hc', hlinked⟩ := create_linked ho hf hc false
  obtain ⟨hresults, hlast⟩ := hlinked.steps hss
  exact ⟨c', hc', hresults, hlast.left⟩

/-- An engine with room for one entry each, while a variable is unknown, known, and changed. -/
theorem steps_remembering_rebound :
    ∃ c c', create {} true (.int 1) .none .standard [] (.datum .none) [("note", .record "x")]
        = .ok c
      ∧ create {} false (.int 1) .none .standard [] (.datum .none) [("note", .record "x")] = .ok c'
      ∧ (c.engine.steps [.solve (.str "x + 1"), .addVariable "x" (.int 2), .solve (.str "x+1"),
          .solve (.str "x + 1"), .addVariable "x" (.int 5), .solve (.str "note(x+1)")]).1.map
            (·.result)
        = (c'.engine.steps [.solve (.str "x + 1"), .addVariable "x" (.int 2), .solve (.str "x+1"),
          .solve (.str "x + 1"), .addVariable "x" (.int 5), .solve (.str "note(x+1)")]).1.map
            (·.result) := by
  obtain ⟨c, hc⟩ : ∃ c, create {} true (.int 1) .none .standard [] (.datum .none)
      [("note", .record "x")] = .ok c := ⟨_, rfl⟩
  have hquiet : ∀ e ∈ [("note", Function.record "x")], e.2.Quiet := by
    intro e he
    rw [List.mem_singleton.1 he]
    exact trivial
  have hdirect : ∀ s ∈ [Step.solve (.str "x + 1"), .addVariable "x" (.int 2), .solve (.str "x+1"),
      .solve (.str "x + 1"), .addVariable "x" (.int 5), .solve (.str "note(x+1)")], s.Direct := by
    intro s hs
    simp only [List.mem_cons, List.not_mem_nil, or_false] at hs
    rcases hs with rfl | rfl | rfl | rfl | rfl | rfl
    · exact ⟨_, rfl⟩
    · exact trivial
    · exact ⟨_, rfl⟩
    · exact ⟨_, rfl⟩
    · exact trivial
    · exact ⟨_, rfl⟩
  have hstandard : OperatorSource.Quiet (.datum .none) := trivial
  obtain ⟨c', hc', hresults, -⟩ := steps_remembering hstandard hquiet hc hdirect
  exact ⟨c, c', hc, hc', hresults⟩

end Engine

end Reckon
