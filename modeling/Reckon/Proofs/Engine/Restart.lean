import Reckon.Proofs.Engine.Settings
import Reckon.Proofs.Engine.Tracking
/-
  An engine that is reset is a new one. Limits, whether anything is remembered and the room for it
  are laid down when an engine is made (`Engine.SameFrame`); all else is replaced when it is reset.
  So after any history the engine is equal to a new one with the given settings
  (`Engine.steps_reset`).

  A bench is not equal to a new one: its tools have scanned, parsed and evaluated, and are left as
  they were. But it shows an engine that is (`Bench.Rests`), and nothing else of it can be seen.
-/
namespace Reckon

namespace Bench

variable {e₀ e : Engine} {exact : Prop} {b : Bench} {w : World}

/-! ## Benches between steps -/

/-- The engine that a bench shows between steps. -/
def Rests (e₀ : Engine) (b : Bench) (e : Engine) : Prop := Shows e₀ False b.quiet ⟨e, []⟩

/-- When a step is over, an evaluation may be left, but it does not go on. -/
theorem Shows.rests (h : b.Shows e₀ exact w) : Rests e₀ b w.engine.rest where
  world := by
    obtain ⟨v, hv⟩ := h.world
    refine ⟨v, ?_⟩
    unfold quiet
    rw [hv]
    rfl
  exact := False.elim
  fit := ⟨h.fit.trie, h.fit.operators⟩
  frame := ⟨h.frame.limits, h.frame.caching, h.frame.tokens, h.frame.trees, h.frame.results⟩
  scanner := h.scanner
  reader := h.reader

/-- A step on a bench is reported as on the engine that it shows. -/
theorem Rests.step (h : b.Rests e₀ e) (s : Step) :
    (b.step s).1 = (e.step s).1 ∧ (b.step s).2.Rests e₀ (e.step s).2 := by
  have hagree := tracks_perform (tracks_invoke Session.maxNesting) s e₀ False b.quiet ⟨e, []⟩ h
  unfold Bench.step Engine.step Session.run
  obtain ⟨a, b', w, hb, hw, hshows⟩ | ⟨f, _, b', w, hb, hw, rfl, hshows⟩ := hagree.cases
  all_goals
    have hevents : b'.world.events = w.events := by
      obtain ⟨v, hv⟩ := hshows.world
      rw [hv]
      rfl
    rw [hb, hw]
    dsimp only
    rw [hevents]
    exact ⟨rfl, hshows.rests⟩

/-- So are steps one after the other. -/
theorem Rests.steps (h : b.Rests e₀ e) (ss : List Step) :
    (b.steps ss).1 = (e.steps ss).1 ∧ (b.steps ss).2.Rests e₀ (e.steps ss).2 := by
  induction ss generalizing b e with
  | nil => exact ⟨rfl, h⟩
  | cons s ss ih =>
    obtain ⟨hreport, hnext⟩ := h.step s
    obtain ⟨hreports, hlast⟩ := ih hnext
    refine ⟨?_, hlast⟩
    show (b.step s).1 :: ((b.step s).2.steps ss).1 = (e.step s).1 :: ((e.step s).2.steps ss).1
    rw [hreport, hreports]

end Bench

/-! ## New engines and new benches -/

variable {limits : Limits} {caching : Bool} {cacheSize operators operators' : Datum}
  {levels levels' : Precedence.Source} {bindings bindings' : List (String × Value)}
  {operatorFunctions operatorFunctions' : OperatorSource}
  {functions functions' : List (String × Function)} {c : Change} {tables : Tables}

/-- A new bench shows a new engine. -/
theorem Bench.exists_create (hc : Engine.create limits caching cacheSize operators levels bindings
    operatorFunctions functions = .ok c) :
    ∃ b, create limits caching cacheSize operators levels bindings operatorFunctions functions
        = .ok b ∧ b.world.events = c.events ∧ b.Rests c.engine c.engine := by
  obtain ⟨size, tables, -, hread, hmade⟩ := Engine.create_eq_ok_iff.1 hc
  have hlimits : c.engine.limits = limits := by
    rw [hmade]
    rfl
  have hfit : c.engine.Fit := by
    rw [hmade]
    exact ⟨rfl, Tables.not_mem_of_read hread⟩
  have hnew : Scanner.Fits ⟨limits, none, .ofList defaultOperators, none, none⟩ limits :=
    ⟨rfl, rfl⟩
  obtain ⟨scanner, hset, hfits, -⟩ := hnew.setOperators hfit.operators
  refine ⟨⟨⟨c.engine, c.events⟩, scanner, ⟨limits, none, .default, none, {}⟩⟩, ?_, rfl, ?_⟩
  · unfold create
    rw [hc]
    show (Scanner.setOperators _ _ >>= fun scanner => _) = _
    rw [hset]
    rfl
  · rw [← hlimits] at hfits
    exact ⟨⟨c.engine.evaluating, rfl⟩, False.elim, hfit, .refl _, hfits, hlimits.symm⟩

/-! ## Reset -/

theorem Cache.clear_congr {κ ν : Type} {c c' : Cache κ ν}
    (h : c.capacity = c'.capacity) : c.clear = c'.clear := by
  unfold Cache.clear
  rw [h]

namespace Engine

variable {e e₀ : Engine}

theorem step_reset (hread : Tables.read operators levels bindings operatorFunctions functions
    = .ok tables) (e : Engine) :
    e.step (.reset operators levels bindings operatorFunctions functions)
      = (⟨.ok .nothing, (e.reset tables).events⟩, (e.reset tables).engine.rest) := by
  have hrun : Session.run (.reset operators levels bindings operatorFunctions functions) ⟨e, []⟩
      = .ok .nothing ⟨(e.reset tables).engine, (e.reset tables).events⟩ := by
    show (Session.lift (Tables.read ..) >>= fun t => _) _ = _
    rw [hread]
    rfl
  exact step_of_ok hrun

/-- If an engine is reset, its settings have been read. -/
theorem read_of_step_reset {a : Answer} (h : (e.step (.reset operators levels bindings
    operatorFunctions functions)).1.result = .ok a) :
    ∃ tables, Tables.read operators levels bindings operatorFunctions functions = .ok tables := by
  cases hread : Tables.read operators levels bindings operatorFunctions functions with
  | ok tables => exact ⟨tables, rfl⟩
  | error f =>
    have hrun : Session.run (.reset operators levels bindings operatorFunctions functions) ⟨e, []⟩
        = .error (.fault f) ⟨e, []⟩ := by
      show (Session.lift (Tables.read ..) >>= fun t => _) _ = _
      rw [hread]
      rfl
    rw [step_of_error hrun] at h
    exact absurd h (by simp)

/-- Nothing of an engine that is reset outlasts it but what was laid down when it was made. -/
theorem reset_congr (h : e.SameFrame e₀) (tables : Tables) :
    (e.reset tables).engine.rest = (e₀.reset tables).engine.rest := by
  show (⟨e.limits, e.caching, tables, .ofList tables.operators, e.tokens.clear, e.trees.clear,
    e.results.clear, none⟩ : Engine) = ⟨e₀.limits, e₀.caching, tables, .ofList tables.operators,
      e₀.tokens.clear, e₀.trees.clear, e₀.results.clear, none⟩
  rw [h.limits, h.caching, Cache.clear_congr h.tokens, Cache.clear_congr h.trees,
    Cache.clear_congr h.results]

theorem steps_append (e : Engine) (ss ss' : List Step) :
    (e.steps (ss ++ ss')).1 = (e.steps ss).1 ++ ((e.steps ss).2.steps ss').1 := by
  induction ss generalizing e with
  | nil => rfl
  | cons s ss ih =>
    show (e.step s).1 :: ((e.step s).2.steps (ss ++ ss')).1
      = (e.step s).1 :: (((e.step s).2.steps ss).1 ++ (((e.step s).2.steps ss).2.steps ss').1)
    rw [ih]

/-- An engine that is reset is a new one. Make any engine and use it in any way, with steps that fail
and functions that perform steps in the middle of evaluations; then reset it. If that succeeds, an
engine can be made with the same limits and room and the settings that were given. What is reported
is what is reported of the new engine, and any steps that follow have the same outcomes, call the
same functions and report the same. The same is true of an engine whose scanner, reader and last
evaluation stay as all that history left them. -/
theorem steps_reset (hc : create limits caching cacheSize operators levels bindings
    operatorFunctions functions = .ok c) (ss : List Step) {report : Report} {e : Engine} {a : Answer}
    (hstep : (c.engine.steps ss).2.step
      (.reset operators' levels' bindings' operatorFunctions' functions') = (report, e))
    (hok : report.result = .ok a) :
    ∃ c', create limits caching cacheSize operators' levels' bindings' operatorFunctions' functions'
        = .ok c'
      ∧ report.events = c'.events
      ∧ (∀ later, e.steps later = c'.engine.steps later)
      ∧ ∃ b b', Bench.create limits caching cacheSize operators levels bindings operatorFunctions
          functions = .ok b
        ∧ Bench.create limits caching cacheSize operators' levels' bindings' operatorFunctions'
          functions' = .ok b'
        ∧ report.events = b'.world.events
        ∧ ∀ later, (b.steps (ss ++ .reset operators' levels' bindings' operatorFunctions' functions'
            :: later)).1 = (b.steps ss).1 ++ report :: (b'.steps later).1 := by
  obtain ⟨b, hb, -, hrests⟩ := Bench.exists_create hc
  obtain ⟨size, tables₀, hsize, -, hmade⟩ := create_eq_ok_iff.1 hc
  have hframe := (hrests.steps ss).2.frame
  have hresult : ((c.engine.steps ss).2.step (.reset operators' levels' bindings' operatorFunctions'
      functions')).1.result = .ok a := by
    rw [hstep]
    exact hok
  obtain ⟨tables, hread⟩ := read_of_step_reset hresult
  rw [step_reset hread] at hstep
  obtain ⟨rfl, rfl⟩ := Prod.mk.inj hstep
  have hc' : create limits caching cacheSize operators' levels' bindings' operatorFunctions'
      functions' = .ok (ofTables limits caching size tables) :=
    create_eq_ok_iff.2 ⟨size, tables, hsize, hread, rfl⟩
  have hsame : ((c.engine.steps ss).2.reset tables).engine.rest
      = (ofTables limits caching size tables).engine := by
    rw [reset_congr hframe tables, hmade]
    rfl
  obtain ⟨b', hb', hevents, hrests'⟩ := Bench.exists_create hc'
  refine ⟨_, hc', rfl, ?_, b, b', hb, hb', hevents.symm, ?_⟩
  · intro later
    rw [hsame]
  · intro later
    rw [(hrests.steps _).1, (hrests.steps ss).1, (hrests'.steps later).1, steps_append]
    show _ ++ (step _ _).1 :: ((step _ _).2.steps later).1 = _
    rw [step_reset hread, hsame]

/-- An engine is used until a name is unknown in the middle of an evaluation that has evaluated
another text, and a text cannot be scanned. Then it is reset. -/
theorem steps_reset_used :
    ∃ c report e c', create {} true (.int 2) .none .standard [("x", .int 1)] (.datum .none)
        [("f", .script [.solve (.str "x * x")])] = .ok c
      ∧ (c.engine.steps [.solve (.str "f() + y"), .setOperators (.list [.str "+", .str "**"]),
          .solve (.str "2 $ 3")]).2.step
        (.reset (.list [.str "+"]) .standard [("y", .int 5)] (.datum .none) []) = (report, e)
      ∧ create {} true (.int 2) (.list [.str "+"]) .standard [("y", .int 5)] (.datum .none) []
          = .ok c'
      ∧ report.events = c'.events
      ∧ ∀ later, e.steps later = c'.engine.steps later := by
  obtain ⟨c, hc⟩ : ∃ c, create {} true (.int 2) .none .standard [("x", .int 1)] (.datum .none)
      [("f", .script [.solve (.str "x * x")])] = .ok c := ⟨_, rfl⟩
  obtain ⟨tables, hread⟩ : ∃ tables, Tables.read (.list [.str "+"]) .standard [("y", .int 5)]
      (.datum .none) [] = .ok tables := ⟨_, rfl⟩
  obtain ⟨c', hc', hevents, hlater, -⟩ := steps_reset hc [.solve (.str "f() + y"),
    .setOperators (.list [.str "+", .str "**"]), .solve (.str "2 $ 3")] (step_reset hread _) rfl
  exact ⟨c, _, _, c', hc, step_reset hread _, hc', hevents, hlater⟩

end Engine

end Reckon
