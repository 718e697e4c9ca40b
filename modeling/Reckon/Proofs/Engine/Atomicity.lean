import Reckon.Engine.Session
import Reckon.Proofs.Outcome
/-
  Settings change as a whole or not at all. A step with an aim replaces one part of the settings, or
  all of them: its values are read and checked first, and only then is the engine changed. So it
  fails and leaves no trace, or the engine is changed in what the step aims at and in what was
  remembered under it (`Engine.ChangedIn`):

    aim            forgets
    operators      tokens, trees and results; texts are scanned with the new operators
    precedence     trees and results
    everything     tokens, trees and results; texts are scanned with the new operators
    any other      results

  `Step.revise` says what the settings are afterwards, `makes_revise` that a step comes to this,
  wherever it is performed: from outside or by a function in the middle of an evaluation.
-/
namespace Reckon

/-- What a step replaces. -/
inductive Aim where
  | operators
  | precedence
  | operatorFunctions
  | bindings
  | functions
  | everything
  deriving DecidableEq, Repr

namespace Aim

/-- New settings as far as the aim goes, and old ones elsewhere. -/
def splice : Aim → Tables → Tables → Tables
  | operators, old, new => { old with operators := new.operators }
  | precedence, old, new => { old with precedence := new.precedence }
  | operatorFunctions, old, new => { old with operatorFunctions := new.operatorFunctions }
  | bindings, old, new => { old with bindings := new.bindings }
  | functions, old, new => { old with functions := new.functions }
  | everything, _, new => new

/-- Texts have to be scanned again. -/
def rescans : Aim → Bool
  | operators | everything => true
  | precedence | operatorFunctions | bindings | functions => false

/-- Tokens have to be parsed again. -/
def reparses : Aim → Bool
  | operators | precedence | everything => true
  | operatorFunctions | bindings | functions => false

theorem rescans_of_reparses {a : Aim} (h : a.reparses = false) : a.rescans = false := by
  cases a with
  | operators | precedence | everything => exact absurd h (by decide)
  | operatorFunctions | bindings | functions => rfl

theorem splice_precedence {a : Aim} (h : a.reparses = false) (old new : Tables) :
    (a.splice old new).precedence = old.precedence := by
  cases a with
  | operators | precedence | everything => exact absurd h (by decide)
  | operatorFunctions | bindings | functions => rfl

end Aim

/-- The aim of a step. Steps that use an engine have none, nor does a new operator, which is three
changes. -/
def Step.aim? : Step → Option Aim
  | .setOperators _ => some .operators
  | .setPrecedence _ => some .precedence
  | .setOperatorFunctions _ => some .operatorFunctions
  | .addVariable .. | .addVariables _ | .setVariables _ | .removeVariable _ => some .bindings
  | .addFunction .. | .addFunctions _ | .setFunctions _ | .removeFunction _ => some .functions
  | .reset .. => some .everything
  | _ => none

/-- The settings after a step that has an aim. -/
def Step.revise : Step → Tables → Except Fault Tables
  | .setOperators operators, t => do
    let ops ← Session.readOperators operators
    .ok { t with operators := ops }
  | .setPrecedence levels, t => do
    let p ← Precedence.ofSource levels
    .ok { t with precedence := p }
  | .setOperatorFunctions functions, t => do
    let fs ← OperatorFunctions.ofSource functions
    .ok { t with operatorFunctions := fs }
  | .addVariable name value, t => .ok { t with bindings := t.bindings.insert name value }
  | .addVariables (some es), t => .ok { t with bindings := t.bindings.insertAll es }
  | .addVariables none, _ => .error (.notIterable Datum.none.typeName)
  | .setVariables (some es), t => .ok { t with bindings := .ofEntries es }
  | .setVariables none, _ => .error (.notIterable Datum.none.typeName)
  | .removeVariable name, t =>
    if t.bindings.contains name then .ok { t with bindings := t.bindings.erase name }
    else .error (.missing (Quoted.encode name))
  | .addFunction name function, t => do
    Tables.checkFunctions [(name, function)]
    .ok { t with functions := t.functions.insert name function }
  | .addFunctions (some fs), t => do
    Tables.checkFunctions fs
    .ok { t with functions := t.functions.insertAll fs }
  | .addFunctions none, _ => .error (.noEntries Datum.none.typeName)
  | .setFunctions (some fs), t => do
    Tables.checkFunctions fs
    .ok { t with functions := .ofEntries fs }
  | .setFunctions none, _ => .error (.noEntries Datum.none.typeName)
  | .removeFunction name, t =>
    if t.functions.contains name then .ok { t with functions := t.functions.erase name }
    else .error (.missing (Quoted.encode name))
  | .reset operators levels bindings operatorFunctions functions, _ =>
    Tables.read operators levels bindings operatorFunctions functions
  | _, t => .ok t

namespace Engine

/-! ## Changes -/

/-- An engine after a change of what is aimed at. Nothing else is changed, and exactly what was
remembered under it is forgotten. -/
structure ChangedIn (a : Aim) (e e' : Engine) : Prop where
  limits : e'.limits = e.limits
  caching : e'.caching = e.caching
  tables : e'.tables = a.splice e.tables e'.tables
  trie : e'.trie = if a.rescans then .ofList e'.tables.operators else e.trie
  tokens : e'.tokens = if a.rescans then e.tokens.clear else e.tokens
  trees : e'.trees = if a.reparses then e.trees.clear else e.trees
  results : e'.results = e.results.clear

variable (e : Engine)

theorem changedIn_setOperators (operators : List String) :
    e.ChangedIn .operators (e.setOperators operators).engine := ⟨rfl, rfl, rfl, rfl, rfl, rfl, rfl⟩

theorem changedIn_setPrecedence (precedence : Precedence) :
    e.ChangedIn .precedence (e.setPrecedence precedence).engine :=
  ⟨rfl, rfl, rfl, rfl, rfl, rfl, rfl⟩

theorem changedIn_setOperatorFunctions (functions : OperatorFunctions) :
    e.ChangedIn .operatorFunctions (e.setOperatorFunctions functions).engine :=
  ⟨rfl, rfl, rfl, rfl, rfl, rfl, rfl⟩

theorem changedIn_updateVariables (bindings : Table Value) :
    e.ChangedIn .bindings (e.updateVariables bindings).engine :=
  ⟨rfl, rfl, rfl, rfl, rfl, rfl, rfl⟩

theorem changedIn_updateFunctions (functions : Table Function) :
    e.ChangedIn .functions (e.updateFunctions functions).engine :=
  ⟨rfl, rfl, rfl, rfl, rfl, rfl, rfl⟩

/-- What the evaluation in progress keeps is no part of a change. -/
theorem changedIn_setVariables (entries : List (String × Value)) :
    e.ChangedIn .bindings (e.setVariables entries).engine :=
  let h := e.keepVariables.changedIn_updateVariables (.ofEntries entries)
  ⟨h.limits, h.caching, h.tables, h.trie, h.tokens, h.trees, h.results⟩

theorem changedIn_setFunctions (entries : List (String × Function)) :
    e.ChangedIn .functions (e.setFunctions entries).engine :=
  let h := e.keepFunctions.changedIn_updateFunctions (.ofEntries entries)
  ⟨h.limits, h.caching, h.tables, h.trie, h.tokens, h.trees, h.results⟩

theorem changedIn_reset (tables : Tables) : e.ChangedIn .everything (e.reset tables).engine :=
  ⟨rfl, rfl, rfl, rfl, rfl, rfl, rfl⟩

end Engine

/-! ## Steps -/

namespace Session

variable {α : Type} {a : Aim} {w : World}

/-- A computation that comes to new settings and changes the engine accordingly, or to a fault and
changes nothing. -/
def Makes (a : Aim) (m : Run Answer) (w : World) : Except Fault Tables → Prop
  | .ok t => ∃ w', m w = .ok .nothing w' ∧ w'.engine.tables = t ∧ w.engine.ChangedIn a w'.engine
    ∧ w.events <+: w'.events
  | .error f => m w = .error (.fault f) w

theorem makes_commit {f : Engine → Change} {t : Tables} (ht : (f w.engine).engine.tables = t)
    (hc : w.engine.ChangedIn a (f w.engine).engine) :
    Makes a (do commit f; pure .nothing) w (.ok t) := ⟨_, rfl, ht, hc, List.prefix_append ..⟩

/-- Values are read before anything is changed. -/
theorem makes_lift {x : Except Fault α} {k : α → Run Answer} {r : α → Except Fault Tables}
    (hk : ∀ b, Makes a (k b) w (r b)) : Makes a (lift x >>= k) w (x >>= r) := by
  cases x with
  | ok b => exact hk b
  | error f => exact rfl

theorem makes_functionEntries {fs : List (String × Function)}
    {k : List (String × Function) → Run Answer} {r : Except Fault Tables}
    (hk : Makes a (k fs) w r) :
    Makes a (functionEntries (some fs) >>= k) w (Tables.checkFunctions fs >>= fun _ => r) := by
  have hentries : functionEntries (some fs) >>= k
      = lift (Tables.checkFunctions fs) >>= fun _ => k fs := by
    show (lift (Tables.checkFunctions fs) >>= fun _ => pure fs) >>= k = _
    rw [bind_assoc]
    rfl
  rw [hentries]
  exact makes_lift fun _ => hk

/-- An entry is removed, or it is missing and nothing is changed. -/
theorem makes_remove {f : Engine → Except Fault Change} {there : Bool} {c : Change} {x : Fault}
    {r : Except Fault Tables} (hf : f w.engine = if there then .ok c else .error x)
    (hr : r = if there then .ok c.engine.tables else .error x)
    (hc : w.engine.ChangedIn a c.engine) : Makes a (do remove f; pure .nothing) w r := by
  have hrun : (do remove f; pure .nothing : Run Answer) w
      = (do (lift (f w.engine) >>= fun c => commit fun _ => c); pure .nothing : Run Answer) w := rfl
  cases there with
  | true =>
    rw [hr]
    rw [hf] at hrun
    exact ⟨⟨c.engine, w.events ++ c.events⟩, hrun, rfl, hc, List.prefix_append ..⟩
  | false =>
    rw [hr]
    rw [hf] at hrun
    exact hrun

/-- A step with an aim comes to the revised settings. -/
theorem makes_revise (invoke : Function → List Value → Run Value) {s : Step}
    (ha : s.aim? = some a) (w : World) :
    Makes a (perform invoke s) w (s.revise w.engine.tables) := by
  match s with
  | .setOperators operators =>
    obtain rfl := Option.some.inj ha
    exact makes_lift fun ops => makes_commit rfl (w.engine.changedIn_setOperators ops)
  | .setPrecedence levels =>
    obtain rfl := Option.some.inj ha
    exact makes_lift fun p => makes_commit rfl (w.engine.changedIn_setPrecedence p)
  | .setOperatorFunctions functions =>
    obtain rfl := Option.some.inj ha
    exact makes_lift fun fs => makes_commit rfl (w.engine.changedIn_setOperatorFunctions fs)
  | .addVariable name value =>
    obtain rfl := Option.some.inj ha
    exact makes_commit rfl (w.engine.changedIn_updateVariables _)
  | .addVariables none =>
    obtain rfl := Option.some.inj ha
    exact rfl
  | .addVariables (some es) =>
    obtain rfl := Option.some.inj ha
    exact makes_commit (f := (·.addVariables es)) rfl (w.engine.changedIn_updateVariables _)
  | .setVariables none =>
    obtain rfl := Option.some.inj ha
    exact rfl
  | .setVariables (some es) =>
    obtain rfl := Option.some.inj ha
    exact makes_commit (f := (·.setVariables es)) rfl
      (w.engine.changedIn_setVariables es)
  | .removeVariable name =>
    obtain rfl := Option.some.inj ha
    exact makes_remove rfl rfl (w.engine.changedIn_updateVariables _)
  | .addFunction name function =>
    obtain rfl := Option.some.inj ha
    exact makes_lift fun _ => makes_commit rfl (w.engine.changedIn_updateFunctions _)
  | .addFunctions none =>
    obtain rfl := Option.some.inj ha
    exact rfl
  | .addFunctions (some fs) =>
    obtain rfl := Option.some.inj ha
    exact makes_functionEntries (makes_commit rfl (w.engine.changedIn_updateFunctions _))
  | .setFunctions none =>
    obtain rfl := Option.some.inj ha
    exact rfl
  | .setFunctions (some fs) =>
    obtain rfl := Option.some.inj ha
    exact makes_functionEntries
      (makes_commit (f := (·.setFunctions fs)) rfl (w.engine.changedIn_setFunctions fs))
  | .removeFunction name =>
    obtain rfl := Option.some.inj ha
    exact makes_remove rfl rfl (w.engine.changedIn_updateFunctions _)
  | .reset operators levels bindings operatorFunctions functions =>
    obtain rfl := Option.some.inj ha
    rw [Step.revise,
      ← bind_pure (Tables.read operators levels bindings operatorFunctions functions)]
    exact makes_lift fun tables =>
      makes_commit (f := (·.reset tables)) rfl (w.engine.changedIn_reset tables)

/-- A step with an aim that fails leaves no trace. One that succeeds changes what it aims at and
forgets what was remembered under it. This holds from outside and in the middle of an evaluation,
whatever its functions do. -/
theorem perform_atomic (invoke : Function → List Value → Run Value) {s : Step}
    (ha : s.aim? = some a) (w : World) :
    (∀ f w', perform invoke s w = .error f w' → w' = w)
      ∧ ∀ answer w', perform invoke s w = .ok answer w' → w.engine.ChangedIn a w'.engine := by
  have hmakes := makes_revise invoke ha w
  cases hr : s.revise w.engine.tables with
  | ok t =>
    rw [hr] at hmakes
    obtain ⟨w₁, hrun, -, hchanged, -⟩ := hmakes
    rw [hrun]
    refine ⟨fun f w' h => absurd h (by simp), fun answer w' h => ?_⟩
    obtain ⟨-, rfl⟩ := EStateM.Result.ok.inj h
    exact hchanged
  | error f =>
    rw [hr] at hmakes
    have hrun : perform invoke s w = .error (.fault f) w := hmakes
    rw [hrun]
    refine ⟨fun f' w' h => ?_, fun answer w' h => absurd h (by simp)⟩
    obtain ⟨-, rfl⟩ := EStateM.Result.error.inj h
    rfl

/-- An engine with a result, and functions of which the last cannot be called; then functions that
all can. -/
theorem perform_atomic_setFunctions :
    ∃ c w f w' w'', Engine.create {} true (.int 4) .none .standard [("x", .int 1)] (.datum .none) []
        = .ok c
      ∧ w = ⟨(c.engine.step (.solve (.str "1+x"))).2, []⟩
      ∧ perform (invoke maxNesting)
          (.setFunctions (some [("f", .record "f"), ("g", .inert (.int 5))])) w = .error f w'
      ∧ w' = w
      ∧ perform (invoke maxNesting) (.setFunctions (some [("f", .record "f")])) w = .ok .nothing w''
      ∧ w.engine.ChangedIn .functions w''.engine := by
  obtain ⟨c, hc⟩ : ∃ c, Engine.create {} true (.int 4) .none .standard [("x", .int 1)]
      (.datum .none) [] = .ok c := ⟨_, rfl⟩
  obtain ⟨w, hw⟩ : ∃ w : World, w = ⟨(c.engine.step (.solve (.str "1+x"))).2, []⟩ := ⟨_, rfl⟩
  obtain ⟨f, w', hfailed⟩ : ∃ f w', perform (invoke maxNesting)
      (.setFunctions (some [("f", .record "f"), ("g", .inert (.int 5))])) w = .error f w' :=
    ⟨_, _, rfl⟩
  obtain ⟨w'', hset⟩ : ∃ w'', perform (invoke maxNesting)
      (.setFunctions (some [("f", .record "f")])) w = .ok .nothing w'' := ⟨_, rfl⟩
  have hsame : w' = w := (perform_atomic (invoke maxNesting) rfl w).1 f w' hfailed
  have hchanged := (perform_atomic (invoke maxNesting) rfl w).2 .nothing w'' hset
  exact ⟨c, w, f, w', w'', hc, hw, hfailed, hsame, hset, hchanged⟩

end Session

/-! ## A new operator -/

/-- Settings with an operator as a word and with its levels, but without functions for it. -/
def Tables.announce (t : Tables) (name : String) (binary unary : Option Level) (isRight : Bool) :
    Tables :=
  { t with
    operators := Session.withOperator t.operators name
    precedence := Session.withLevels t.precedence name binary unary isRight }

/-- The engine knows an operator as a word and with its levels, but has no functions for it yet. -/
def Engine.announce (e : Engine) (name : String) (binary unary : Option Level) (isRight : Bool) :
    Engine :=
  ((e.setOperators (Session.withOperator e.tables.operators name)).engine.setPrecedence
    (Session.withLevels e.tables.precedence name binary unary isRight)).engine

theorem Engine.announce_tables (e : Engine) (name : String) (binary unary : Option Level)
    (isRight : Bool) :
    (e.announce name binary unary isRight).tables = e.tables.announce name binary unary isRight :=
  rfl

/-- The functions with those of one more operator, if all of them can be called. -/
def OperatorFunctions.extend (o : OperatorFunctions) (name : String)
    (binary unary : Option Function) : Except Fault OperatorFunctions :=
  ofTables (Session.withEntry o.unary name unary) (Session.withEntry o.binary name binary)

namespace Session

/-- The name of a new operator, if its forms are complete. -/
def accept (operator : Datum) (binary : Option Function) (binaryLevel : Datum)
    (unary : Option Function) (unaryLevel : Datum) : Except Fault String := do
  formsComplete operator binary binaryLevel unary unaryLevel
  operator.operator?

variable {operator : Datum} {binary : Option Function} {binaryLevel : Datum}
  {unary : Option Function} {unaryLevel : Datum}

/-- An operator that is not accepted is refused at once. -/
theorem addOperator_refused {f : Fault}
    (h : accept operator binary binaryLevel unary unaryLevel = .error f) (isRight : Bool)
    (w : World) :
    addOperator operator binary binaryLevel unary unaryLevel isRight w = .error (.fault f) w := by
  unfold accept at h
  unfold addOperator
  cases hforms : formsComplete operator binary binaryLevel unary unaryLevel with
  | error f' =>
    rw [hforms] at h
    rw [Except.error.inj h]
    rfl
  | ok _ =>
    rw [hforms] at h
    rw [show operator.operator? = .error f from h]
    rfl

/-- An operator that is accepted is announced. What is left is to add its functions. -/
theorem addOperator_accepted {name : String}
    (h : accept operator binary binaryLevel unary unaryLevel = .ok name) (isRight : Bool)
    (w : World) :
    ∃ events, w.events <+: events
      ∧ addOperator operator binary binaryLevel unary unaryLevel isRight w
        = (do
            let o ← lift (w.engine.tables.operatorFunctions.extend name binary unary)
            commit (·.setOperatorFunctions o) : Run Unit)
          ⟨w.engine.announce name (binary.map fun _ => binaryLevel)
            (unary.map fun _ => unaryLevel) isRight, events⟩ := by
  unfold accept at h
  obtain ⟨_, hforms, hname⟩ := exists_of_bind_eq_ok h
  unfold addOperator
  rw [hforms, hname]
  refine ⟨_, ?_, rfl⟩
  exact (List.prefix_append ..).trans (List.prefix_append ..)

/-- Where its functions cannot be called, it stays announced. -/
theorem addOperator_announced {name : String} {f : Fault}
    (h : accept operator binary binaryLevel unary unaryLevel = .ok name) (isRight : Bool)
    {w : World} (ho : w.engine.tables.operatorFunctions.extend name binary unary = .error f) :
    ∃ events, w.events <+: events
      ∧ addOperator operator binary binaryLevel unary unaryLevel isRight w
        = .error (.fault f) ⟨w.engine.announce name (binary.map fun _ => binaryLevel)
            (unary.map fun _ => unaryLevel) isRight, events⟩ := by
  obtain ⟨events, hevents, hrun⟩ := addOperator_accepted h isRight w
  rw [ho] at hrun
  exact ⟨events, hevents, hrun⟩

theorem addOperator_added {name : String} {o : OperatorFunctions}
    (h : accept operator binary binaryLevel unary unaryLevel = .ok name) (isRight : Bool)
    {w : World} (ho : w.engine.tables.operatorFunctions.extend name binary unary = .ok o) :
    ∃ events, w.events <+: events
      ∧ addOperator operator binary binaryLevel unary unaryLevel isRight w
        = .ok () ⟨((w.engine.announce name (binary.map fun _ => binaryLevel)
            (unary.map fun _ => unaryLevel) isRight).setOperatorFunctions o).engine, events⟩ := by
  obtain ⟨events, hevents, hrun⟩ := addOperator_accepted h isRight w
  rw [ho] at hrun
  exact ⟨_, hevents.trans (List.prefix_append ..), hrun⟩

end Session

end Reckon
