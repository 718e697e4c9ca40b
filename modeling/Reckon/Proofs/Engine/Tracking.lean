import Reckon.Proofs.Engine.Bench
import Reckon.Proofs.Engine.Settings
/-
  What tools are left with cannot be seen. An engine that has no tools and puts evaluations away
  when they are over does what a bench does that shows it (`Bench.Shows`), and comes to the same
  (`Bench.Tracks`): `Bench.tracks_perform` says so for steps, `Bench.tracks_invoke` for calls in the
  middle of an evaluation.

  In the middle of an evaluation, what is in progress does matter. There the bench and the engine
  that it shows have begun the same evaluation, and are equal. Between evaluations any may be left.
-/
namespace Reckon

/-! ## What a bench shows -/

theorem Cache.capacity_get? {κ ν : Type} [DecidableEq κ] (c : Cache κ ν) (key : κ) :
    (c.get? key).2.capacity = c.capacity := by
  unfold Cache.get?
  split
  · rfl
  · rfl

namespace Engine

/-- An engine in the middle of another evaluation. -/
def during (e : Engine) (v : Option Evaluating) : Engine := { e with evaluating := v }

/-- Texts are scanned with the operators in force, none of which is empty. -/
structure Fit (e : Engine) : Prop where
  trie : e.trie = .ofList e.tables.operators
  operators : "" ∉ e.tables.operators

/-- What is laid down when an engine is made. -/
structure SameFrame (e e' : Engine) : Prop where
  limits : e.limits = e'.limits
  caching : e.caching = e'.caching
  tokens : e.tokens.capacity = e'.tokens.capacity
  trees : e.trees.capacity = e'.trees.capacity
  results : e.results.capacity = e'.results.capacity

namespace SameFrame

variable {e e' e'' : Engine}

theorem refl (e : Engine) : e.SameFrame e := ⟨rfl, rfl, rfl, rfl, rfl⟩

theorem trans (h : e.SameFrame e') (h' : e'.SameFrame e'') : e.SameFrame e'' :=
  ⟨h.limits.trans h'.limits, h.caching.trans h'.caching, h.tokens.trans h'.tokens,
    h.trees.trans h'.trees, h.results.trans h'.results⟩

/-- What is forgotten keeps its room. -/
theorem of_changedIn {a : Aim} (h : e.ChangedIn a e') : e'.SameFrame e where
  limits := h.limits
  caching := h.caching
  tokens := by
    rw [h.tokens]
    split
    · rfl
    · rfl
  trees := by
    rw [h.trees]
    split
    · rfl
    · rfl
  results := by
    rw [h.results]
    rfl

end SameFrame

/-- A change that operators are no part of leaves an engine fit. -/
theorem Fit.changedIn {e e' : Engine} {a : Aim} (h : e.Fit) (ha : a.rescans = false)
    (hchanged : e.ChangedIn a e') : e'.Fit := by
  have hoperators : e'.tables.operators = e.tables.operators := by
    rw [hchanged.tables]
    exact Aim.splice_operators ha _ _
  refine ⟨?_, ?_⟩
  · rw [hchanged.trie, ha, hoperators]
    exact h.trie
  · rw [hoperators]
    exact h.operators

/-- A change that does not look at the evaluation in progress, and keeps to what is laid down. -/
structure Blind (f : Engine → Change) : Prop where
  events : ∀ e v, (f (e.during v)).events = (f e).events
  engine : ∀ e v, ∃ v', (f (e.during v)).engine = (f e).engine.during v'
  frame : ∀ e, (f e).engine.SameFrame e
  fit : ∀ e, e.Fit → (f e).engine.Fit

namespace Blind

/-- A change of settings that texts are not scanned with. -/
theorem of_changedIn {f : Engine → Change} {a : Aim}
    (hf : ∀ e : Engine, e.ChangedIn a (f e).engine) (ha : a.rescans = false)
    (hevents : ∀ e v, (f (e.during v)).events = (f e).events)
    (hengine : ∀ e v, ∃ v', (f (e.during v)).engine = (f e).engine.during v') : Blind f where
  events := hevents
  engine := hengine
  frame e := .of_changedIn (hf e)
  fit e h := h.changedIn ha (hf e)

/-- A change of what is remembered. -/
theorem of_same {f : Engine → Engine} (hduring : ∀ e v, f (e.during v) = (f e).during v)
    (hsame : ∀ e, (f e).SameSettings e) (hframe : ∀ e, (f e).SameFrame e) :
    Blind fun e => ⟨f e, []⟩ where
  events _ _ := rfl
  engine e v := ⟨v, hduring e v⟩
  frame := hframe
  fit e h := by
    refine ⟨?_, ?_⟩
    · rw [(hsame e).trie, (hsame e).tables]
      exact h.trie
    · rw [(hsame e).tables]
      exact h.operators

end Blind

/-- A store that is asked without a look at the evaluation in progress. -/
structure BlindStore {ν : Type} (store : Engine → Option ν × Engine) : Prop where
  answer : ∀ e v, store (e.during v) = ((store e).1, (store e).2.during v)
  frame : ∀ e, (store e).2.SameFrame e
  fit : ∀ e, e.Fit → (store e).2.Fit

theorem blindStore_recallTokens (text : String) : BlindStore (Session.recallTokens text) where
  answer _ _ := rfl
  frame e := ⟨rfl, rfl, e.tokens.capacity_get? text, rfl, rfl⟩
  fit _ h := ⟨h.trie, h.operators⟩

theorem blindStore_recallTree (text : String) : BlindStore (Session.recallTree text) where
  answer _ _ := rfl
  frame e := ⟨rfl, rfl, rfl, e.trees.capacity_get? text, rfl⟩
  fit _ h := ⟨h.trie, h.operators⟩

theorem blindStore_recallResult (expr : Expr) : BlindStore (Session.recallResult expr) where
  answer _ _ := rfl
  frame e := ⟨rfl, rfl, rfl, rfl, e.results.capacity_get? expr.bare⟩
  fit _ h := ⟨h.trie, h.operators⟩

end Engine

/-- A world in the middle of another evaluation. -/
def World.during (w : World) (v : Option Evaluating) : World := { w with engine := w.engine.during v }

namespace Bench

open Session (sourceOf)

variable {α β : Type} {e₀ : Engine} {exact : Prop} {b : Bench} {w : World}

/-- The engine at work that a bench shows, whatever its tools were left with. It may be in the middle
of another evaluation, unless it is shown exactly. Some things are as with a certain engine from the
start. -/
structure Shows (e₀ : Engine) (exact : Prop) (b : Bench) (w : World) : Prop where
  world : ∃ v, b.world = w.during v
  exact : exact → b.world = w
  fit : w.engine.Fit
  frame : w.engine.SameFrame e₀
  scanner : b.scanner.Fits e₀.limits
  reader : b.reader.limits = e₀.limits

theorem Shows.mono {exact' : Prop} (h : b.Shows e₀ exact w) (hexact : exact' → exact) :
    b.Shows e₀ exact' w :=
  ⟨h.world, fun he => h.exact (hexact he), h.fit, h.frame, h.scanner, h.reader⟩

/-- A bench has the settings of the engine that it shows. -/
theorem Shows.tables (h : b.Shows e₀ exact w) : b.world.engine.tables = w.engine.tables := by
  obtain ⟨v, hv⟩ := h.world
  rw [hv]
  rfl

/-- A job does what is done by the engine that the bench shows, and comes to the same. -/
def Tracks (m' : Job α) (m : Run α) : Prop :=
  ∀ e₀ exact b w, Shows e₀ exact b w → Agree (Shows e₀ exact) Eq (m' b) (m w)

theorem tracks_pure (a : α) : Tracks (pure a) (pure a) := fun _ _ _ _ h => ⟨rfl, h⟩

theorem Tracks.bind {m' : Job α} {m : Run α} {k' : α → Job β} {k : α → Run β} (hm : Tracks m' m)
    (hk : ∀ a, Tracks (k' a) (k a)) : Tracks (m' >>= k') (m >>= k) :=
  fun e₀ exact b w h => (hm e₀ exact b w h).bind fun a b' w' h' => hk a e₀ exact b' w' h'

/-! ### Computations without tools -/

theorem own_bind (m : Run α) (k : α → Run β) : own (m >>= k) = own m >>= fun a => own (k a) := by
  funext b
  cases hm : m b.world with
  | ok a w =>
    have hown : own m b = .ok a { b with world := w } := by
      unfold own
      rw [hm]
    rw [bind_of_eq_ok hown]
    unfold own
    rw [bind_of_eq_ok hm]
  | error f w =>
    have hown : own m b = .error f { b with world := w } := by
      unfold own
      rw [hm]
    rw [bind_of_eq_error hown]
    unfold own
    rw [bind_of_eq_error hm]

theorem tracks_own_bind {m : Run α} {k : α → Run β} (hm : Tracks (own m) m)
    (hk : ∀ a, Tracks (own (k a)) (k a)) : Tracks (own (m >>= k)) (m >>= k) := by
  rw [own_bind]
  exact hm.bind hk

theorem tracks_own_pure (a : α) : Tracks (own (pure a)) (pure a) := fun _ _ _ _ h => ⟨rfl, h⟩

theorem tracks_fault (f : Fault) : Tracks (own (Session.fault f : Run α)) (Session.fault f) :=
  fun _ _ _ _ h => ⟨rfl, h⟩

theorem tracks_lift (r : Except Fault α) : Tracks (own (Session.lift r)) (Session.lift r) := by
  cases r with
  | ok a => exact tracks_own_pure a
  | error f => exact tracks_fault f

/-- What is read of an engine is nothing of the evaluation in progress. -/
theorem tracks_own_get {k : World → Run α} (hk : ∀ w, Tracks (own (k w)) (k w))
    (hblind : ∀ w v, k (w.during v) = k w) : Tracks (own (get >>= k)) (get >>= k) := by
  intro e₀ exact b w h
  obtain ⟨v, hv⟩ := h.world
  have hread : own (get >>= k) b = own (k w) b := by
    show own (k b.world) b = _
    rw [hv, hblind]
  rw [hread]
  exact hk w e₀ exact b w h

theorem tracks_own_ite {c : Prop} [Decidable c] {m m' : Run α} (hm : Tracks (own m) m)
    (hm' : Tracks (own m') m') : Tracks (own (if c then m else m')) (if c then m else m') := by
  split
  · exact hm
  · exact hm'

theorem tracks_commit {f : Engine → Change} (hf : Engine.Blind f) :
    Tracks (own (Session.commit f)) (Session.commit f) := by
  intro e₀ exact b w h
  refine ⟨rfl, ?_, fun he => ?_, hf.fit _ h.fit, (hf.frame _).trans h.frame, h.scanner, h.reader⟩
  · obtain ⟨v, hv⟩ := h.world
    obtain ⟨v', hv'⟩ := hf.engine w.engine v
    refine ⟨v', ?_⟩
    dsimp only
    rw [hv]
    show (⟨(f (w.engine.during v)).engine, w.events ++ (f (w.engine.during v)).events⟩ : World)
      = ⟨(f w.engine).engine.during v', w.events ++ (f w.engine).events⟩
    rw [hv', hf.events]
  · dsimp only
    rw [h.exact he]

theorem tracks_update {f : Engine → Engine} (hf : Engine.Blind fun e => ⟨f e, []⟩) :
    Tracks (own (Session.update f)) (Session.update f) := by
  have hcommit : Session.update f = Session.commit fun e => ⟨f e, []⟩ := by
    funext w
    show EStateM.Result.ok () (⟨f w.engine, w.events⟩ : World)
      = .ok () ⟨f w.engine, w.events ++ []⟩
    rw [List.append_nil]
  rw [hcommit]
  exact tracks_commit hf

theorem tracks_emit (event : Event) :
    Tracks (own (Session.emit event)) (Session.emit event) :=
  tracks_commit (f := fun e => ⟨e, [event]⟩)
    ⟨fun _ _ => rfl, fun _ v => ⟨v, rfl⟩, fun e => .refl e, fun _ h => h⟩

theorem tracks_answer (f : Function) (args : List Value) :
    Tracks (own (Session.answer f args)) (Session.answer f args) := by
  intro e₀ exact b w h
  unfold own Session.answer
  cases f.apply args with
  | ok v => exact ⟨rfl, h⟩
  | error e => exact ⟨rfl, h⟩

/-! ### Tools -/

theorem tracks_retool {ops : List String} (hops : "" ∉ ops) :
    Tracks (retool ops) (pure ()) := by
  intro e₀ exact b w h
  obtain ⟨scanner, hset, hfits, -⟩ := h.scanner.setOperators hops
  unfold retool
  rw [hset]
  exact ⟨rfl, h.world, h.exact, h.fit, h.frame, hfits, h.reader⟩

/-! ### Texts -/

/-- A store finds the same whatever evaluation is in progress. -/
theorem tracks_ask {ν : Type} {store : Engine → Option ν × Engine}
    (hstore : Engine.BlindStore store) :
    Tracks (own (Session.ask store)) (Session.ask store) := by
  intro e₀ exact b w h
  obtain ⟨v, hv⟩ := h.world
  have hfound : store b.world.engine = ((store w.engine).1, (store w.engine).2.during v) := by
    rw [hv]
    exact hstore.answer w.engine v
  have hframe := (hstore.frame w.engine).trans h.frame
  have hfit := hstore.fit w.engine h.fit
  unfold own Session.ask
  rw [hfound]
  rcases hs : store w.engine with ⟨_ | a, engine⟩
  · exact ⟨rfl, h⟩
  · rw [hs] at hframe hfit
    refine ⟨rfl, ⟨v, ?_⟩, fun he => ?_, hfit, hframe, h.scanner, h.reader⟩
    · dsimp only
      rw [hv]
      rfl
    · rw [h.exact he, hs] at hfound
      dsimp only
      rw [← (Prod.mk.inj hfound).2, h.exact he]

theorem tracks_recallText {ν : Type} {store : String → Engine → Option ν × Engine}
    (hstore : ∀ text, Engine.BlindStore (store text)) (d : Datum) :
    Tracks (own (Session.recallText store d)) (Session.recallText store d) := by
  refine tracks_own_get (fun w => ?_) fun _ _ => rfl
  refine tracks_own_ite ?_ (tracks_own_pure none)
  unfold Session.consult
  refine tracks_own_ite (tracks_fault _) ?_
  cases d with
  | none | bool | int | float | list | dict => exact tracks_own_pure none
  | str text => exact tracks_ask (hstore text)

theorem tracks_recallValue (expr : Expr) :
    Tracks (own (Session.recallValue expr)) (Session.recallValue expr) :=
  tracks_own_get (fun _ => tracks_own_ite (tracks_ask (Engine.blindStore_recallResult expr))
    (tracks_own_pure none)) fun _ _ => rfl

theorem tracks_keep {f : Engine → Engine} (hf : Engine.Blind fun e => ⟨f e, []⟩) (a : α) :
    Tracks (own (Session.keep f a)) (Session.keep f a) :=
  tracks_own_get (fun _ => tracks_own_ite (tracks_own_bind (tracks_update hf) fun _ =>
    tracks_own_pure a) (tracks_own_pure a)) fun _ _ => rfl

theorem tracks_keepTokens (d : Datum) (ts : List Token) :
    Tracks (own (Session.keepTokens d ts)) (Session.keepTokens d ts) := by
  cases d with
  | none | bool | int | float | list | dict => exact tracks_own_pure ts
  | str text =>
    refine tracks_own_bind (tracks_emit _) fun _ => tracks_keep ?_ ts
    exact .of_same (fun _ _ => rfl) (fun _ => ⟨rfl, rfl, rfl⟩) fun _ => ⟨rfl, rfl, rfl, rfl, rfl⟩

theorem tracks_keepParse (tokens nodes : Nat) (expr : Expr) :
    Tracks (own (Session.keepParse tokens nodes expr)) (Session.keepParse tokens nodes expr) :=
  tracks_own_bind (tracks_emit _) fun _ => tracks_own_pure expr

theorem tracks_keepTree (d : Datum) (expr : Expr) :
    Tracks (own (Session.keepTree d expr)) (Session.keepTree d expr) := by
  cases d with
  | none | bool | int | float | list | dict =>
    refine tracks_own_get (fun w => ?_) fun _ _ => rfl
    exact tracks_own_ite (tracks_own_pure expr) (tracks_own_pure expr)
  | str text =>
    refine tracks_keep ?_ expr
    exact .of_same (fun _ _ => rfl) (fun _ => ⟨rfl, rfl, rfl⟩) fun _ => ⟨rfl, rfl, rfl, rfl, rfl⟩

theorem tracks_keepResult (expr : Expr) (v : Value) :
    Tracks (own (Session.keepResult expr v)) (Session.keepResult expr v) := by
  refine tracks_keep ?_ v
  exact .of_same (fun _ _ => rfl) (fun _ => ⟨rfl, rfl, rfl⟩) fun _ => ⟨rfl, rfl, rfl, rfl, rfl⟩

theorem agree_get {Q : Bench → World → Prop} {k : World → Run α} {r : EStateM.Result _ Bench α}
    (h : Agree Q Eq r (k w w)) : Agree Q Eq r ((get >>= k) w) := h

/-- The scanner finds what a new scan finds. -/
theorem tracks_scan (d : Datum) : Tracks (scan d) (Session.scan d) := by
  intro e₀ exact b w h
  cases d with
  | none | bool | int | float | list | dict => exact ⟨rfl, h⟩
  | str text =>
    obtain ⟨scanner, hreset, hfits, hrun⟩ := h.scanner.reset h.fit.operators text
    rw [← h.fit.trie, ← h.frame.limits] at hrun
    have hafter := hfits.run
    unfold scan
    rw [h.tables, hreset]
    dsimp only
    unfold Session.scan
    refine agree_get ?_
    dsimp only
    rw [← hrun]
    rcases hresult : scanner.run with ⟨f | ts, scanner'⟩
    all_goals rw [hresult] at hafter
    · exact ⟨rfl, h.world, h.exact, h.fit, h.frame, hafter, h.reader⟩
    · exact tracks_keepTokens (.str text) ts e₀ exact _ w
        ⟨h.world, h.exact, h.fit, h.frame, hafter, h.reader⟩

/-- The reader finds what a new parse finds. -/
theorem tracks_parse (ts : List Token) (source : Option String) :
    Tracks (parse ts source) (Session.parse ts source) := by
  intro e₀ exact b w h
  -- a reader that is reset reads like one that was never used
  have hreset : b.reader.reset (some ts) (.table w.engine.tables.precedence) source
      = (.ok (), ⟨w.engine.limits, some ts, w.engine.tables.precedence, source, {}⟩) := by
    rw [h.frame.limits, ← h.reader]
    rfl
  have hparse : Reader.parse ⟨w.engine.limits, some ts, w.engine.tables.precedence, source, {}⟩
      true = ((Parser.parse w.engine.tables.precedence w.engine.limits source ts).1,
        ⟨w.engine.limits, some ts, w.engine.tables.precedence, source,
          (Parser.parse w.engine.tables.precedence w.engine.limits source ts).2⟩) := rfl
  unfold parse
  rw [h.tables, hreset]
  dsimp only
  rw [hparse]
  unfold Session.parse
  refine agree_get ?_
  rcases Parser.parse w.engine.tables.precedence w.engine.limits source ts with ⟨f | expr, cursor⟩
  · exact ⟨rfl, h.world, h.exact, h.fit, h.frame, h.scanner, h.frame.limits⟩
  · exact tracks_keepParse ts.length cursor.nodes expr e₀ exact _ w
      ⟨h.world, h.exact, h.fit, h.frame, h.scanner, h.frame.limits⟩

/-- To look something up before it is worked out is to look it up, and then to work it out. -/
theorem recallText_elim {store : String → Engine → Option α × Engine} (d : Datum)
    (otherwise : Run α) (w : World) :
    (Session.recallText store d >>= fun found => found.elim otherwise pure) w
      = (if w.engine.caching = true then Session.consult store d pure otherwise
          else otherwise) w := by
  show ((if w.engine.caching = true then _ else _ : Run (Option α)) >>= _) w = _
  split
  · unfold Session.consult
    split
    · rfl
    · cases d with
      | none | bool | int | float | list | dict => rfl
      | str text =>
        show EStateM.bind _ _ w = _
        unfold EStateM.bind
        dsimp only
        rcases store text w.engine with ⟨_ | a, engine⟩
        · rfl
        · rfl
  · rfl

theorem tracks_tokenize (d : Datum) : Tracks (tokenize d) (Session.tokenize d) := by
  have htokenize : Session.tokenize d = Session.recallText Session.recallTokens d
      >>= fun found => found.elim (Session.scan d) pure :=
    funext fun w => (recallText_elim d (Session.scan d) w).symm
  rw [htokenize]
  refine (tracks_recallText Engine.blindStore_recallTokens d).bind fun found => ?_
  cases found with
  | none => exact tracks_scan d
  | some ts => exact tracks_pure ts

theorem tracks_buildTree (d : Datum) : Tracks (buildTree d) (Session.buildTree d) := by
  have hbuild : Session.buildTree d = Session.tokenize d >>= fun ts =>
      Session.parse ts (sourceOf d) >>= fun expr => Session.keepTree d expr := rfl
  rw [hbuild]
  exact (tracks_tokenize d).bind fun ts => (tracks_parse ts _).bind fun expr =>
    tracks_keepTree d expr

theorem tracks_tree (d : Datum) : Tracks (tree d) (Session.tree d) := by
  have htree : Session.tree d = Session.recallText Session.recallTree d
      >>= fun found => found.elim (Session.buildTree d) pure :=
    funext fun w => (recallText_elim d (Session.buildTree d) w).symm
  rw [htree]
  refine (tracks_recallText Engine.blindStore_recallTree d).bind fun found => ?_
  cases found with
  | none => exact tracks_buildTree d
  | some expr => exact tracks_pure expr

/-! ### Evaluations -/

section

variable {invoke' : Function → List Value → Job Value}
  {invoke : Function → List Value → Run Value}

theorem tracks_call (hinvoke : ∀ f args, Tracks (invoke' f args) (invoke f args)) (f : Function)
    (args : List Value) :
    Tracks ((host invoke').call f args) ((Session.host invoke).call f args) :=
  (tracks_emit _).bind fun _ => hinvoke f args

/-- In the middle of an evaluation, the bench and the engine are equal. -/
theorem alike_host (hinvoke : ∀ f args, Tracks (invoke' f args) (invoke f args)) (e₀ : Engine) :
    Evaluation.Alike (host invoke') (Session.host invoke) id (Shows e₀ True) Eq where
  scope := by
    intro b w h
    obtain rfl := h.exact trivial
    exact ⟨rfl, rfl, rfl⟩
  call := by
    intro _ _ b w f args _ _ h
    exact tracks_call hinvoke f args e₀ True b w h
  node := by
    intro b w _ _ _ h
    obtain rfl := h.exact trivial
    rfl
  operator := by
    intro b w _ _ _ h
    obtain rfl := h.exact trivial
    rfl
  function := by
    intro b w _ _ _ h
    obtain rfl := h.exact trivial
    rfl

/-- When an evaluation begins, nothing is left of the one before. -/
theorem Shows.begin (h : b.Shows e₀ exact w) (source : Option String) :
    Shows e₀ True
      { b with world := { b.world with engine := b.world.engine.beginEvaluation source } }
      { w with engine := w.engine.beginEvaluation source } where
  world := by
    obtain ⟨v, hv⟩ := h.world
    refine ⟨some ⟨source, w.engine.tables.operatorFunctions, none, none⟩, ?_⟩
    dsimp only
    rw [hv]
    rfl
  exact _ := by
    obtain ⟨v, hv⟩ := h.world
    rw [hv]
    rfl
  fit := ⟨h.fit.trie, h.fit.operators⟩
  frame := ⟨h.frame.limits, h.frame.caching, h.frame.tokens, h.frame.trees, h.frame.results⟩
  scanner := h.scanner
  reader := h.reader

theorem tracks_compute (hinvoke : ∀ f args, Tracks (invoke' f args) (invoke f args)) (expr : Expr)
    (source : Option String) :
    Tracks (compute invoke' expr source) (Session.compute invoke expr source) := by
  intro e₀ exact b w h
  have heval := Evaluation.eval_agree (alike_host hinvoke e₀) expr (h.begin source)
  rw [Expr.relocate_id] at heval
  have hkeep := heval.bind fun v b' w' h' => tracks_keepResult expr v e₀ True b' w' h'
  exact hkeep.mono fun _ _ h' => h'.mono fun _ => trivial

theorem tracks_evaluate (hinvoke : ∀ f args, Tracks (invoke' f args) (invoke f args))
    (expr : Expr) (source : Option String) :
    Tracks (evaluate invoke' expr source) (Session.evaluate invoke expr source) := by
  have hevaluate : Session.evaluate invoke expr source
      = Session.recallValue expr >>= fun found =>
        found.elim (Session.compute invoke expr source) pure := by
    funext w
    show (if w.engine.caching = true then _ else _ : Run Value) w
      = ((if w.engine.caching = true then _ else _ : Run (Option Value)) >>= _) w
    split
    · show _ = EStateM.bind _ _ w
      unfold EStateM.bind Session.ask
      rcases Session.recallResult expr w.engine with ⟨_ | v, engine⟩
      · rfl
      · rfl
    · rfl
  rw [hevaluate]
  refine (tracks_recallValue expr).bind fun found => ?_
  cases found with
  | none => exact tracks_compute hinvoke expr source
  | some v => exact tracks_pure v

theorem tracks_solve (hinvoke : ∀ f args, Tracks (invoke' f args) (invoke f args)) (d : Datum) :
    Tracks (solve invoke' d) (Session.solve invoke d) :=
  (tracks_tree d).bind fun expr => tracks_evaluate hinvoke expr _

end

/-! ### Settings -/

theorem blind_setOperators {ops : List String} (hops : "" ∉ ops) :
    Engine.Blind (·.setOperators ops) where
  events _ _ := rfl
  engine _ v := ⟨v, rfl⟩
  frame e := .of_changedIn (e.changedIn_setOperators ops)
  fit _ _ := ⟨rfl, hops⟩

theorem blind_reset {tables : Tables} (hops : "" ∉ tables.operators) :
    Engine.Blind (·.reset tables) where
  events _ _ := rfl
  engine _ _ := ⟨_, rfl⟩
  frame e := .of_changedIn (e.changedIn_reset tables)
  fit _ _ := ⟨rfl, hops⟩

theorem blind_setPrecedence (p : Precedence) : Engine.Blind (·.setPrecedence p) :=
  .of_changedIn (fun e => e.changedIn_setPrecedence p) rfl (fun _ _ => rfl) fun _ v => ⟨v, rfl⟩

theorem blind_setOperatorFunctions (o : OperatorFunctions) :
    Engine.Blind (·.setOperatorFunctions o) :=
  .of_changedIn (fun e => e.changedIn_setOperatorFunctions o) rfl (fun _ _ => rfl) fun _ v =>
    ⟨v, rfl⟩

/-- Entries of tables that are worked out of the tables in force. -/
theorem blind_updateVariables (t : Tables → Table Value) :
    Engine.Blind fun e => e.updateVariables (t e.tables) :=
  .of_changedIn (fun e => e.changedIn_updateVariables _) rfl (fun _ _ => rfl) fun _ v => ⟨v, rfl⟩

theorem blind_updateFunctions (t : Tables → Table Function) :
    Engine.Blind fun e => e.updateFunctions (t e.tables) :=
  .of_changedIn (fun e => e.changedIn_updateFunctions _) rfl (fun _ _ => rfl) fun _ v => ⟨v, rfl⟩

theorem blind_setVariables (es : List (String × Value)) : Engine.Blind (·.setVariables es) :=
  .of_changedIn (fun e => e.changedIn_setVariables es) rfl (fun _ _ => rfl) fun _ _ => ⟨_, rfl⟩

theorem blind_setFunctions (fs : List (String × Function)) : Engine.Blind (·.setFunctions fs) :=
  .of_changedIn (fun e => e.changedIn_setFunctions fs) rfl (fun _ _ => rfl) fun _ _ => ⟨_, rfl⟩

/-- The scanner is given the operators before the engine is. -/
theorem tracks_retool_commit {ops : List String} (hops : "" ∉ ops) {f : Engine → Change}
    (hf : Engine.Blind f) {m' : Job α} {m : Run α} (hm : Tracks m' m) :
    Tracks (do retool ops; own (Session.commit f); m') (do Session.commit f; m) :=
  (tracks_retool hops).bind fun _ => (tracks_commit hf).bind fun _ => hm

theorem not_mem_withOperator {ops : List String} (hops : "" ∉ ops) {d : Datum} {name : String}
    (hname : d.operator? = .ok name) : "" ∉ Session.withOperator ops name := by
  have hne : "" ≠ name := by
    rintro rfl
    obtain rfl := Datum.of_operator hname
    exact absurd hname (by simp [Datum.operator?])
  unfold Session.withOperator
  split
  · exact hops
  · rw [List.mem_append, List.mem_singleton]
    exact fun h => h.elim hops hne

/-- What is read is known when the rest is done. -/
theorem tracks_lift_bind {r : Except Fault α} {k' : α → Job β} {k : α → Run β}
    (hk : ∀ a, r = .ok a → Tracks (k' a) (k a)) :
    Tracks (own (Session.lift r) >>= k') (Session.lift r >>= k) := by
  cases r with
  | ok a => exact fun e₀ exact b w h => hk a rfl e₀ exact b w h
  | error f => exact fun _ _ _ _ h => ⟨rfl, h⟩

theorem tracks_get {k' : Bench → Job α} {k : World → Run α}
    (hk : ∀ b w, b.world.engine.tables = w.engine.tables → w.engine.Fit → Tracks (k' b) (k w)) :
    Tracks (get >>= k') (get >>= k) :=
  fun e₀ exact b w h => hk b w h.tables h.fit e₀ exact b w h

theorem tracks_addOperator (operator : Datum) (binary : Option Function) (binaryLevel : Datum)
    (unary : Option Function) (unaryLevel : Datum) (isRight : Bool) :
    Tracks (addOperator operator binary binaryLevel unary unaryLevel isRight)
      (Session.addOperator operator binary binaryLevel unary unaryLevel isRight) := by
  refine (tracks_lift _).bind fun _ => tracks_lift_bind fun name hname => ?_
  refine tracks_get fun b w htables hfit => ?_
  rw [htables]
  have hops' := not_mem_withOperator hfit.operators hname
  refine tracks_retool_commit hops' (blind_setOperators hops') ?_
  refine (tracks_commit (blind_setPrecedence _)).bind fun _ => (tracks_lift _).bind fun o => ?_
  exact tracks_commit (blind_setOperatorFunctions o)

theorem tracks_entries (missing : Fault) (es : Option (List (String × α))) :
    Tracks (own (Session.entries missing es)) (Session.entries missing es) := by
  cases es with
  | none => exact tracks_fault missing
  | some es => exact tracks_own_pure es

theorem tracks_functionEntries (functions : Option (List (String × Function))) :
    Tracks (own (Session.functionEntries functions)) (Session.functionEntries functions) :=
  tracks_own_bind (tracks_entries _ _) fun fs =>
    tracks_own_bind (tracks_lift _) fun _ => tracks_own_pure fs

/-- An entry is removed if it is there. -/
theorem tracks_remove (there : Tables → Bool) {f : Engine → Except Fault Change}
    {change : Engine → Change} {missing : Fault}
    (hf : ∀ e, f e = if there e.tables then .ok (change e) else .error missing)
    (hchange : Engine.Blind change) : Tracks (own (Session.remove f)) (Session.remove f) := by
  have hremove : Session.remove f = get >>= fun w =>
      if there w.engine.tables = true then Session.commit change else Session.fault missing := by
    funext w
    show (Session.lift (f w.engine) >>= fun c => Session.commit fun _ => c) w
      = (if there w.engine.tables = true then _ else _ : Run Unit) w
    rw [hf]
    split
    · rfl
    · rfl
  rw [hremove]
  refine tracks_own_get (fun w => ?_) fun _ _ => rfl
  exact tracks_own_ite (tracks_commit hchange) (tracks_fault missing)

/-- A change after which there is nothing to answer. -/
theorem tracks_own_done {m : Run α} (hm : Tracks (own m) m) :
    Tracks (own (do let _ ← m; pure Answer.nothing)) (do let _ ← m; pure Answer.nothing) :=
  tracks_own_bind hm fun _ => tracks_own_pure _

/-! ### Steps -/

section

variable {invoke' : Function → List Value → Job Value}
  {invoke : Function → List Value → Run Value}

/-- No tool is left in a state that a later step could see. -/
theorem tracks_perform (hinvoke : ∀ f args, Tracks (invoke' f args) (invoke f args)) (s : Step) :
    Tracks (perform invoke' s) (Session.perform invoke s) := by
  match s with
  | .solve d => exact (tracks_solve hinvoke d).bind fun v => tracks_pure _
  | .tokenize d => exact (tracks_tokenize d).bind fun ts => tracks_pure _
  | .parse none _ => exact tracks_fault _
  | .parse (some ts) source => exact (tracks_parse ts source).bind fun _ => tracks_pure _
  | .parseText d source =>
    exact (tracks_tokenize d).bind fun ts => (tracks_parse ts source).bind fun _ => tracks_pure _
  | .evaluate expr source => exact (tracks_evaluate hinvoke expr source).bind fun _ => tracks_pure _
  | .setOperators operators =>
    refine tracks_lift_bind fun ops hread => ?_
    obtain ⟨items, -, hops⟩ := exists_of_bind_eq_ok hread
    have hops' := Datum.not_mem_of_operators hops
    exact tracks_retool_commit hops' (blind_setOperators hops') (tracks_pure _)
  | .setPrecedence _ =>
    exact tracks_own_bind (tracks_lift _) fun p =>
      tracks_own_done (tracks_commit (blind_setPrecedence p))
  | .setOperatorFunctions _ =>
    exact tracks_own_bind (tracks_lift _) fun o =>
      tracks_own_done (tracks_commit (blind_setOperatorFunctions o))
  | .addOperator operator binary binaryLevel unary unaryLevel isRight =>
    exact (tracks_addOperator operator binary binaryLevel unary unaryLevel isRight).bind fun _ =>
      tracks_pure _
  | .addVariable name value =>
    exact tracks_own_done (tracks_commit
      (blind_updateVariables fun t => t.bindings.insertAll [(name, value)]))
  | .addVariables _ =>
    exact tracks_own_bind (tracks_entries _ _) fun es =>
      tracks_own_done (tracks_commit (blind_updateVariables fun t => t.bindings.insertAll es))
  | .setVariables _ =>
    exact tracks_own_bind (tracks_entries _ _) fun es =>
      tracks_own_done (tracks_commit (blind_setVariables es))
  | .removeVariable name =>
    exact tracks_own_done (tracks_remove (fun t => t.bindings.contains name)
      (fun _ => rfl) (blind_updateVariables fun t => t.bindings.erase name))
  | .addFunction name f =>
    exact tracks_own_bind (tracks_lift _) fun _ => tracks_own_done (tracks_commit
      (blind_updateFunctions fun t => t.functions.insertAll [(name, f)]))
  | .addFunctions _ =>
    exact tracks_own_bind (tracks_functionEntries _) fun fs =>
      tracks_own_done (tracks_commit (blind_updateFunctions fun t => t.functions.insertAll fs))
  | .setFunctions _ =>
    exact tracks_own_bind (tracks_functionEntries _) fun fs =>
      tracks_own_done (tracks_commit (blind_setFunctions fs))
  | .removeFunction name =>
    exact tracks_own_done (tracks_remove (fun t => t.functions.contains name)
      (fun _ => rfl) (blind_updateFunctions fun t => t.functions.erase name))
  | .reset .. =>
    refine tracks_lift_bind fun tables hread => ?_
    have hops := Tables.not_mem_of_read hread
    exact tracks_retool_commit hops (blind_reset hops) (tracks_pure _)
  | .clearCaches =>
    refine tracks_own_done (tracks_update ?_)
    exact .of_same (fun _ _ => rfl) (fun _ => ⟨rfl, rfl, rfl⟩) fun _ => ⟨rfl, rfl, rfl, rfl, rfl⟩
  | .snapshot =>
    exact tracks_own_get (k := fun w => pure (Answer.snapshot ⟨w.engine.tables, w.engine.limits⟩))
      (fun _ => tracks_own_pure _) fun _ _ => rfl
  | .invalid cause => exact tracks_fault cause

theorem tracks_performAll {run' : Step → Job Answer} {run : Step → Run Answer}
    (h : ∀ s, Tracks (run' s) (run s)) (ss : List Step) (last : Answer) :
    Tracks (performAll run' ss last) (Session.performAll run ss last) := by
  induction ss generalizing last with
  | nil => exact tracks_pure last
  | cons s ss ih => exact (h s).bind ih

end

/-- Nor can a function see it that is called in the middle of an evaluation. -/
theorem tracks_invoke (depth : Nat) (f : Function) (args : List Value) :
    Tracks (invoke depth f args) (Session.invoke depth f args) := by
  induction depth generalizing f args with
  | zero =>
    cases f with
    | script steps => exact tracks_fault _
    | native _ | record _ | inert _ => exact tracks_answer _ args
  | succ depth ih =>
    cases f with
    | script steps =>
      exact (tracks_performAll (tracks_perform ih) steps .nothing).bind fun answer =>
        tracks_pure answer.toValue
    | native _ | record _ | inert _ => exact tracks_answer _ args

end Bench

end Reckon
