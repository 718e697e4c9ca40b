import Reckon.Proofs.Engine.Moves
/-
  Functions that use the engine in the middle of an evaluation. A function that only asks performs
  steps, but none that changes settings; it may well evaluate other expressions, and these find and
  leave results of their own. Where all functions that are called only ask, what happens is calm.

  An engine that remembers nothing is the measure. `Engine.Gives` says that a tree comes to a value
  on every engine with certain settings that remembers nothing, wherever the nodes of the tree are,
  if only calls may be nested deep enough there: a call whose answer is remembered takes no depth.
  On an engine whose results are given in this sense (`Engine.Serves`), a calm computation mirrors
  one on engines that remember nothing: if it comes to an answer, they come to the same answer
  (`Session.Mirrors`). This is shown for evaluations by recursion on trees, given that calls do so,
  and for calls by induction on the depth (`Session.mirrored_invoke`). A failure is mirrored by
  nothing; it is never remembered.
-/
namespace Reckon

/-! ## Calm -/

/-- Whether a step changes no settings. -/
def Step.asks : Step → Bool
  | .solve _ | .tokenize _ | .parse .. | .parseText .. | .evaluate .. | .clearCaches | .snapshot
  | .invalid _ => true
  | _ => false

/-- Whether a function performs no steps but such that change no settings. -/
def Function.asks : Function → Bool
  | .script steps => steps.all Step.asks
  | _ => true

/-- Whether an event is anything but the call of a function that changes settings. -/
def Event.calm : Event → Bool
  | .called i => i.callee.asks
  | _ => true

/-- Nothing but calm events have happened. -/
def World.Calm (w : World) : Prop := ∀ event ∈ w.events, event.calm = true

/-- What is calm now has been calm before. -/
theorem World.Path.calm {w w' : World} (h : w.Path w') (hw : w'.Calm) : w.Calm :=
  fun event he => hw event (h.events.subset he)

/-! ## Engines that remember nothing -/

namespace Engine

/-- The scope of an evaluation that starts now. -/
def base (e : Engine) : Scope :=
  ⟨e.tables.bindings, e.tables.operatorFunctions, e.tables.functions, none⟩

/-- An engine at work with the settings of another. The evaluation in progress reads the tables in
force, and what is remembered of texts is what would be found anew. -/
structure Ready (w e : Engine) : Prop where
  same : w.SameSettings e
  current : w.scope.Matches e.base
  rooted : w.Rooted

/-- An engine at work that remembers nothing. -/
structure Forgets (u e : Engine) : Prop extends u.Ready e where
  caching : u.caching = false

namespace Ready

variable {w w' e e' : Engine}

theorem of_built (h : w.Ready e) (hb : w.Built w') : w'.Ready e where
  same := hb.same.trans h.same
  current := by
    have hscope : w'.scope = w.scope := by
      unfold scope
      rw [hb.evaluating, hb.same.tables]
    rw [hscope]
    exact h.current
  rooted := hb.rooted

theorem begin (h : w.Ready e) (source : Option String) : (w.beginEvaluation source).Ready e where
  same := ⟨h.same.limits, h.same.tables, h.same.trie⟩
  current := by
    have htables := h.same.tables
    unfold base
    rw [← htables]
    exact ⟨rfl, rfl, rfl⟩
  rooted := ⟨h.rooted.tokens, h.rooted.trees⟩

theorem clearCaches (h : w.Ready e) : w.clearCaches.Ready e where
  same := ⟨h.same.limits, h.same.tables, h.same.trie⟩
  current := h.current
  rooted := .clearCaches w

theorem congr (h : w.Ready e) (hs : e.SameSettings e') : w.Ready e' where
  same := h.same.trans hs
  current := by
    have hcurrent := h.current
    unfold base at hcurrent ⊢
    rw [hs.tables] at hcurrent
    exact hcurrent
  rooted := h.rooted

end Ready

/-- The engine with the same settings that remembers nothing. -/
def blank (e : Engine) : Engine := { e.clearCaches with caching := false, evaluating := none }

theorem forgets_blank (e : Engine) : e.blank.Forgets e where
  same := ⟨rfl, rfl, rfl⟩
  current := ⟨rfl, rfl, rfl⟩
  rooted := ⟨(Rooted.clearCaches e).tokens, (Rooted.clearCaches e).trees⟩
  caching := rfl

variable {α β : Type} {e e' : Engine}

/-- Computations on engines that remember nothing all come to an answer from some depth on. -/
def Settles (e : Engine) (m : Nat → Run α) (a : α) : Prop :=
  ∃ depth, ∀ d ≥ depth, ∀ u : World, u.engine.Forgets e →
    ∃ u', m d u = .ok a u' ∧ u'.engine.Forgets e

theorem settles_pure (a : α) : e.Settles (fun _ => pure a) a := ⟨0, fun _ _ u hu => ⟨u, rfl, hu⟩⟩

namespace Settles

variable {m m' : Nat → Run α} {a : α}

theorem bind {k : Nat → α → Run β} {b : β} (hm : e.Settles m a)
    (hk : e.Settles (fun d => k d a) b) : e.Settles (fun d => m d >>= k d) b := by
  obtain ⟨d₁, hm⟩ := hm
  obtain ⟨d₂, hk⟩ := hk
  refine ⟨max d₁ d₂, fun d hd u hu => ?_⟩
  obtain ⟨u₁, hrun, hu₁⟩ := hm d (Nat.le_trans (Nat.le_max_left ..) hd) u hu
  obtain ⟨u₂, hrun', hu₂⟩ := hk d (Nat.le_trans (Nat.le_max_right ..) hd) u₁ hu₁
  exact ⟨u₂, (bind_of_eq_ok hrun).trans hrun', hu₂⟩

/-- What answers alike settles alike. -/
theorem of_agree (h : e.Settles m' a)
    (hm : ∀ d (u : World), u.engine.Ready e → Agree Eq (fun _ _ => True) (m d u) (m' d u)) :
    e.Settles m a := by
  obtain ⟨depth, h⟩ := h
  refine ⟨depth, fun d hd u hu => ?_⟩
  obtain ⟨u', hrun, hu'⟩ := h d hd u hu
  have hagree := hm d u hu.toReady
  rw [hrun] at hagree
  obtain ⟨b, u₁, u₂, hb, hb', rfl⟩ | ⟨f, f', u₁, u₂, -, hf', -, -⟩ := hagree.cases
  · obtain ⟨rfl, rfl⟩ := EStateM.Result.ok.inj hb'
    exact ⟨u', hb, hu'⟩
  · exact absurd hf' (by simp)

/-- A call that performs steps takes one more depth than the steps. -/
theorem succ (h : e.Settles m a) (hm : ∀ d, m' (d + 1) = m d) : e.Settles m' a := by
  obtain ⟨depth, h⟩ := h
  refine ⟨depth + 1, fun d hd u hu => ?_⟩
  obtain ⟨d, rfl⟩ := Nat.exists_eq_add_of_le' (Nat.le_of_add_left_le hd)
  rw [hm]
  exact h d (Nat.le_of_succ_le_succ hd) u hu

theorem congr (h : e.Settles m a) (hs : e.SameSettings e') : e'.Settles m a := by
  obtain ⟨depth, h⟩ := h
  refine ⟨depth, fun d hd u hu => ?_⟩
  obtain ⟨u', hrun, hu'⟩ := h d hd u ⟨hu.toReady.congr hs.symm, hu.caching⟩
  exact ⟨u', hrun, hu'.toReady.congr hs, hu'.caching⟩

end Settles

/-- A tree comes to a value on every engine with these settings that remembers nothing, wherever its
nodes are and whatever text errors show. -/
def Gives (e : Engine) (expr : Expr) (v : Value) : Prop :=
  ∀ (expr' : Expr) (source : Option String), expr'.Same expr →
    e.Settles (fun d => Session.evaluate (Session.invoke d) expr' source) v

theorem Gives.congr {expr : Expr} {v : Value} (h : e.Gives expr v) (hs : e.SameSettings e') :
    e'.Gives expr v := fun expr' source hsame => (h expr' source hsame).congr hs

theorem Gives.of_same {expr expr' : Expr} {v : Value} (h : e.Gives expr v)
    (hsame : expr'.Same expr) : e.Gives expr' v :=
  fun expr'' source hsame' => h expr'' source (Eq.trans hsame' hsame)

/-! ## Engines that remember what is given -/

/-- An engine at work whose results are all given. -/
structure Serves (w e : Engine) : Prop extends w.Ready e where
  results : ∀ key v, (key, v) ∈ w.results.entries → e.Gives key v

namespace Serves

variable {w w' : Engine}

theorem of_built (h : w.Serves e) (hb : w.Built w') : w'.Serves e := by
  refine ⟨h.toReady.of_built hb, fun key v hm => ?_⟩
  rw [hb.results] at hm
  exact h.results key v hm

theorem begin (h : w.Serves e) (source : Option String) : (w.beginEvaluation source).Serves e :=
  ⟨h.toReady.begin source, h.results⟩

theorem clearCaches (h : w.Serves e) : w.clearCaches.Serves e :=
  ⟨h.toReady.clearCaches, fun _ _ hm => absurd hm List.not_mem_nil⟩

theorem remember (h : w.Serves e) {expr : Expr} {v : Value} (hv : e.Gives expr v) :
    ({ w with results := w.results.set expr.bare v } : Engine).Serves e := by
  refine ⟨⟨⟨h.same.limits, h.same.tables, h.same.trie⟩, h.current, h.rooted.tokens,
    h.rooted.trees⟩, fun key v' hm => ?_⟩
  rcases Cache.mem_of_mem_set hm with heq | hm
  · obtain ⟨rfl, rfl⟩ := Prod.mk.inj heq
    exact hv.of_same expr.bare_bare
  · exact h.results key v' hm

theorem reuse (h : w.Serves e) {expr : Expr} {v : Value}
    (hr : Session.recallResult expr w = (some v, w')) : w'.Serves e ∧ e.Gives expr v := by
  unfold Session.recallResult at hr
  obtain ⟨hv, rfl⟩ := Prod.mk.inj hr
  obtain ⟨hmem, hsub⟩ := Cache.mem_of_get? hv
  refine ⟨⟨⟨⟨h.same.limits, h.same.tables, h.same.trie⟩, h.current, h.rooted.tokens,
    h.rooted.trees⟩, fun key v' hm => h.results key v' (hsub _ hm)⟩, ?_⟩
  exact (h.results expr.bare v hmem).of_same expr.bare_bare.symm

end Serves

end Engine

namespace Session

variable {α β : Type} {e : Engine} {m m₁ : Run α} {m' m₁' : Nat → Run α}

/-- A computation on an engine that serves. If it is calm, the engine serves on, and what it comes
to is what computations come to that remember nothing. -/
structure Mirrors (e : Engine) (m : Run α) (m' : Nat → Run α) : Prop where
  walks : Walks m
  serves : ∀ {w : World}, w.engine.Serves e → (left (m w)).Calm → (left (m w)).engine.Serves e
  settles : ∀ {w w' : World} {a : α}, w.engine.Serves e → m w = .ok a w' → w'.Calm →
    e.Settles m' a

theorem mirrors_pure (a : α) : Mirrors e (pure a) fun _ => pure a where
  walks := walks_pure a
  serves h _ := h
  settles _ hrun _ := by
    obtain ⟨rfl, -⟩ := EStateM.Result.ok.inj hrun
    exact Engine.settles_pure a

theorem Stuck.mirrors (h : Stuck m) : Mirrors e m m' where
  walks := h.walks
  serves := by
    intro w hw _
    obtain ⟨f, hrun⟩ := h w
    rw [hrun]
    exact hw
  settles := by
    intro w w' a _ hrun _
    obtain ⟨f, hfail⟩ := h w
    rw [hfail] at hrun
    exact absurd hrun (by simp)

namespace Mirrors

theorem bind {k : α → Run β} {k' : Nat → α → Run β} (hm : Mirrors e m m')
    (hk : ∀ a, Mirrors e (k a) fun d => k' d a) : Mirrors e (m >>= k) fun d => m' d >>= k' d where
  walks := hm.walks.bind fun a => (hk a).walks
  serves := by
    intro w hw hcalm
    have hserves := hm.serves hw
    have hpath := hm.walks w hw.rooted
    cases hrun : m w with
    | error f w' =>
      rw [hrun] at hserves
      rw [bind_of_eq_error hrun] at hcalm ⊢
      exact hserves hcalm
    | ok a w' =>
      rw [hrun] at hserves hpath
      rw [bind_of_eq_ok hrun] at hcalm ⊢
      have hrooted : w'.engine.Rooted := hpath.keeps Engine.invariant_rooted.move hw.rooted
      -- the rest only adds events, so what is calm in the end was calm in the middle
      exact (hk a).serves (hserves (((hk a).walks w' hrooted).calm hcalm)) hcalm
  settles := by
    intro w w'' b hw hrun hcalm
    obtain ⟨a, w', hrun', hrun⟩ := exists_of_run_eq_ok hrun
    have hserves := hm.serves hw
    have hpath := hm.walks w hw.rooted
    rw [hrun'] at hserves hpath
    have hpath' := (hk a).walks w' (hpath.keeps Engine.invariant_rooted.move hw.rooted)
    rw [hrun] at hpath'
    have hcalm' : w'.Calm := hpath'.calm hcalm
    exact (hm.settles hw hrun' hcalm').bind ((hk a).settles (hserves hcalm') hrun hcalm)

/-- What answers alike mirrors alike. -/
theorem of_agree (h : Mirrors e m₁ m₁') (hwalks : Walks m)
    (hm : ∀ w : World, w.engine.Ready e → Agree Eq (fun _ _ => True) (m w) (m₁ w))
    (hm' : ∀ d (u : World), u.engine.Ready e → Agree Eq (fun _ _ => True) (m' d u) (m₁' d u)) :
    Mirrors e m m' where
  walks := hwalks
  serves := by
    intro w hw hcalm
    rw [(hm w hw.toReady).left] at hcalm ⊢
    exact h.serves hw hcalm
  settles := by
    intro w w' a hw hrun hcalm
    have hagree := hm w hw.toReady
    rw [hrun] at hagree
    obtain ⟨b, w₁, w₂, hb, hb', rfl⟩ | ⟨f, f', w₁, w₂, hf, -, -, -⟩ := hagree.cases
    · obtain ⟨rfl, rfl⟩ := EStateM.Result.ok.inj hb
      exact (h.settles hw hb' hcalm).of_agree hm'
    · exact absurd hf (by simp)

theorem of_run (h : Mirrors e m₁ m₁') (hwalks : Walks m)
    (hm : ∀ w : World, w.engine.Ready e → m w = m₁ w)
    (hm' : ∀ d (u : World), u.engine.Ready e → m' d u = m₁' d u) : Mirrors e m m' :=
  h.of_agree hwalks (fun w hw => .of_eq (hm w hw)) fun d u hu => .of_eq (hm' d u hu)

/-- Where something is found, it decides; where nothing is found, there is no answer. -/
theorem elim {γ : Type} {o : Option γ} {failing : Run α} {failing' : Nat → Run α} {k : γ → Run α}
    {k' : Nat → γ → Run α} (hfailing : Stuck failing)
    (hk : ∀ c, Mirrors e (k c) fun d => k' d c) :
    Mirrors e (o.elim failing k) fun d => o.elim (failing' d) (k' d) := by
  cases o with
  | none => exact hfailing.mirrors
  | some c => exact hk c

end Mirrors

/-- Work on a text mirrors itself. -/
theorem mirrors_of_lands {r : Except Failure α} (hwalks : Walks m)
    (h : ∀ w : World, w.engine.Ready e → Lands Engine.Built m w r) : Mirrors e m fun _ => m where
  walks := hwalks
  serves := by
    intro w hw _
    obtain ⟨w', hbuilt, -, hrun⟩ := h w hw.toReady
    rw [hrun, left_outcome]
    exact hw.of_built hbuilt
  settles := by
    intro w w' a hw hrun _
    obtain ⟨w₁, -, -, hrun'⟩ := h w hw.toReady
    rw [hrun] at hrun'
    cases r with
    | error f => exact absurd hrun' (by simp [outcome])
    | ok a' =>
      obtain ⟨rfl, -⟩ := EStateM.Result.ok.inj hrun'
      refine ⟨0, fun _ _ u hu => ?_⟩
      obtain ⟨u', hbuilt, -, hrun''⟩ := h u hu.toReady
      exact ⟨u', hrun'', hu.toReady.of_built hbuilt, hbuilt.caching.trans hu.caching⟩

theorem mirrors_emit (event : Event) : Mirrors e (emit event) fun _ => emit event :=
  mirrors_of_lands (walks_emit event) fun _ h => lands_emit h.rooted.built event

/-! ### Texts -/

theorem mirrors_tokenize (d : Datum) : Mirrors e (tokenize d) fun _ => tokenize d := by
  cases d with
  | str text =>
    exact mirrors_of_lands (walks_tokenize _) fun w h =>
      (tokenize_lands h.rooted text).of_eq (h.same.freshTokens text)
  | none | bool | int | float | list | dict => exact (stuck_tokenize rfl).mirrors

theorem mirrors_parse (ts : List Token) (source : Option String) :
    Mirrors e (parse ts source) fun _ => parse ts source :=
  mirrors_of_lands (walks_parse ts source) fun _ h =>
    (parse_lands h.rooted ts source).of_eq (h.same.freshParse ts source)

theorem mirrors_tree (d : Datum) : Mirrors e (tree d) fun _ => tree d := by
  cases d with
  | str text =>
    exact mirrors_of_lands (walks_tree _) fun w h =>
      (tree_lands h.rooted text).of_eq (h.same.freshTree text)
  | none | bool | int | float | list | dict => exact (stuck_tree rfl).mirrors

/-! ### Evaluations -/

section

variable {inner : Function → List Value → Run Value}

/-- Calls change an engine by moves. If they only ask, they mirror calls on engines that remember
nothing. -/
structure Mirrored (e : Engine) (inner : Function → List Value → Run Value) : Prop where
  walks : ∀ f args, Walks (inner f args)
  asks : ∀ {f : Function}, f.asks = true → ∀ args,
    Mirrors e (inner f args) fun d => invoke d f args

/-- A function whose call is calm only asks: the call itself has happened. -/
theorem asks_of_calm (hwalks : ∀ f args, Walks (inner f args)) {f : Function} {args : List Value}
    {w : World} (h : w.engine.Rooted) (hcalm : (left ((host inner).call f args w)).Calm) :
    f.asks = true :=
  have hpath := hwalks f args { w with events := w.events ++ [.called ⟨f, args⟩] } h
  hpath.calm hcalm (.called ⟨f, args⟩) (List.mem_append_right _ (List.mem_singleton_self _))

theorem mirrors_call (h : Mirrored e inner) (f : Function) (args : List Value) :
    Mirrors e ((host inner).call f args) fun d => (host (invoke d)).call f args := by
  have hasks : f.asks = true → Mirrors e ((host inner).call f args) fun d =>
      (host (invoke d)).call f args := fun hf => (mirrors_emit _).bind fun _ => h.asks hf args
  refine ⟨walks_call h.walks f args, ?_, ?_⟩
  · intro w hw hcalm
    exact (hasks (asks_of_calm h.walks hw.rooted hcalm)).serves hw hcalm
  · intro w w' v hw hrun hcalm
    have hcalm' : (left ((host inner).call f args w)).Calm := by
      rw [hrun]
      exact hcalm
    exact (hasks (asks_of_calm h.walks hw.rooted hcalm')).settles hw hrun hcalm

theorem agree_applyOperator (op : String) (position : Int) (f : Function) (args : List Value)
    (w : World) : Agree Eq (fun _ _ => True)
      (Evaluation.applyOperator (host inner) op position f args w)
      ((host inner).call f args w) := by
  unfold Evaluation.applyOperator
  cases (host inner).call f args w with
  | ok v w' => exact ⟨rfl, rfl⟩
  | error f' w' => exact ⟨trivial, rfl⟩

theorem agree_applyFunction (name : String) (position : Int) (f : Function) (args : List Value)
    (w : World) : Agree Eq (fun _ _ => True)
      (Evaluation.applyFunction (host inner) name position f args w)
      ((host inner).call f args w) := by
  unfold Evaluation.applyFunction
  cases (host inner).call f args w with
  | ok v w' => exact ⟨rfl, rfl⟩
  | error f' w' => exact ⟨trivial, rfl⟩

theorem mirrors_applyOperator (h : Mirrored e inner) (op : String) (position position' : Int)
    (f : Function) (args : List Value) :
    Mirrors e (Evaluation.applyOperator (host inner) op position f args) fun d =>
      Evaluation.applyOperator (host (invoke d)) op position' f args := by
  have hwalks : Walks (Evaluation.applyOperator (host inner) op position f args) := by
    intro w hw
    rw [(agree_applyOperator op position f args w).left]
    exact walks_call h.walks f args w hw
  exact (mirrors_call h f args).of_agree hwalks (fun w _ => agree_applyOperator ..)
    fun d u _ => agree_applyOperator ..

theorem mirrors_applyFunction (h : Mirrored e inner) (name : String) (position position' : Int)
    (f : Function) (args : List Value) :
    Mirrors e (Evaluation.applyFunction (host inner) name position f args) fun d =>
      Evaluation.applyFunction (host (invoke d)) name position' f args := by
  have hwalks : Walks (Evaluation.applyFunction (host inner) name position f args) := by
    intro w hw
    rw [(agree_applyFunction name position f args w).left]
    exact walks_call h.walks f args w hw
  exact (mirrors_call h f args).of_agree hwalks (fun w _ => agree_applyFunction ..)
    fun d u _ => agree_applyFunction ..

/-! An evaluation on an engine at work looks names up in the tables in force. -/

theorem eval_var {w : World} (h : w.engine.Ready e) (name : String) (position : Int) :
    Evaluation.eval (host inner) (.var name position) w
      = (e.tables.bindings.find? name).elim
          (Evaluation.failAt (host inner) (.undefinedVariable name) position) pure w := by
  have hlookup : ((host inner).scope w).bindings = e.tables.bindings := h.current.bindings
  rw [Evaluation.eval_var, hlookup]

theorem eval_unary {w : World} (h : w.engine.Ready e) (op : String) (x : Expr) (position : Int) :
    Evaluation.eval (host inner) (.unary op x position) w
      = (e.tables.operatorFunctions.unary.find? op).elim
          (Evaluation.failAt (host inner) (.unknownOperator op "unary") position)
          (fun f => do
            let v ← Evaluation.eval (host inner) x
            Evaluation.applyOperator (host inner) op position f [v]) w := by
  have hlookup : ((host inner).scope w).operators = e.tables.operatorFunctions :=
    h.current.operators
  rw [Evaluation.eval_unary, hlookup]

theorem eval_binary {w : World} (h : w.engine.Ready e) (op : String) (l r : Expr)
    (position : Int) :
    Evaluation.eval (host inner) (.binary op l r position) w
      = (e.tables.operatorFunctions.binary.find? op).elim
          (Evaluation.failAt (host inner) (.unknownOperator op "binary") position)
          (fun f => do
            let a ← Evaluation.eval (host inner) l
            let b ← Evaluation.eval (host inner) r
            Evaluation.applyOperator (host inner) op position f [a, b]) w := by
  have hlookup : ((host inner).scope w).operators = e.tables.operatorFunctions :=
    h.current.operators
  rw [Evaluation.eval_binary, hlookup]

theorem eval_call {w : World} (h : w.engine.Ready e) (name : String) (args : List Expr)
    (position : Int) :
    Evaluation.eval (host inner) (.call name args position) w
      = (e.base.function? name).elim
          (Evaluation.failAt (host inner) (.undefinedFunction name) position)
          (fun f => do
            let vs ← Evaluation.evalAll (host inner) args
            Evaluation.applyFunction (host inner) name position f vs) w := by
  have hlookup : ((host inner).scope w).function? name = e.base.function? name :=
    h.current.function? name
  rw [Evaluation.eval_call, hlookup]

theorem stuck_failAt {problem : Problem} {position : Int} {cause : Option Fault.Kind} :
    Stuck (Evaluation.failAt (host inner) problem position cause) := fun _ => ⟨_, rfl⟩

mutual
/-- An evaluation mirrors one that remembers nothing, wherever the nodes of the tree are there. -/
theorem mirrors_eval (h : Mirrored e inner) (expr : Expr) {expr' : Expr}
    (hsame : expr'.Same expr) :
    Mirrors e (Evaluation.eval (host inner) expr) fun d =>
      Evaluation.eval (host (invoke d)) expr' := by
  have hwalks := walks_eval h.walks expr
  match expr with
  | .constant text position =>
    obtain ⟨position', rfl⟩ := hsame.constant
    rw [Evaluation.eval]
    simp only [Evaluation.eval]
    cases Literal.value text with
    | ok v => exact mirrors_pure v
    | error f => exact stuck_failAt.mirrors
  | .var name position =>
    obtain ⟨position', rfl⟩ := hsame.var
    refine .of_run ?_ hwalks (fun w hw => eval_var hw ..) fun d u hu => eval_var hu ..
    exact .elim stuck_failAt mirrors_pure
  | .unary op x position =>
    obtain ⟨x', position', rfl, hx⟩ := hsame.unary
    refine .of_run ?_ hwalks (fun w hw => eval_unary hw ..) fun d u hu => eval_unary hu ..
    refine .elim stuck_failAt fun f => (mirrors_eval h x hx).bind fun v => ?_
    exact mirrors_applyOperator h op position position' f [v]
  | .binary op l r position =>
    obtain ⟨l', r', position', rfl, hl, hr⟩ := hsame.binary
    refine .of_run ?_ hwalks (fun w hw => eval_binary hw ..) fun d u hu => eval_binary hu ..
    refine .elim stuck_failAt fun f => (mirrors_eval h l hl).bind fun a => ?_
    refine (mirrors_eval h r hr).bind fun b => ?_
    exact mirrors_applyOperator h op position position' f [a, b]
  | .call name args position =>
    obtain ⟨args', position', rfl, hargs⟩ := hsame.call
    refine .of_run ?_ hwalks (fun w hw => eval_call hw ..) fun d u hu => eval_call hu ..
    refine .elim stuck_failAt fun f => (mirrors_evalAll h args hargs).bind fun vs => ?_
    exact mirrors_applyFunction h name position position' f vs
  | .unknown type position =>
    rw [Evaluation.eval]
    exact stuck_failAt.mirrors

theorem mirrors_evalAll (h : Mirrored e inner) (exprs : List Expr) {exprs' : List Expr}
    (hsame : Expr.bareAll exprs' = Expr.bareAll exprs) :
    Mirrors e (Evaluation.evalAll (host inner) exprs) fun d =>
      Evaluation.evalAll (host (invoke d)) exprs' := by
  match exprs with
  | [] =>
    obtain rfl := Expr.Same.of_bareAll_nil hsame
    rw [Evaluation.evalAll]
    simp only [Evaluation.evalAll]
    exact mirrors_pure []
  | x :: xs =>
    obtain ⟨x', xs', rfl, hx, hxs⟩ := Expr.Same.of_bareAll_cons hsame
    rw [Evaluation.evalAll]
    simp only [Evaluation.evalAll]
    refine (mirrors_eval h x hx).bind fun v => ?_
    exact (mirrors_evalAll h xs hxs).bind fun vs => mirrors_pure (v :: vs)
end

/-! ### Values -/

/-- What remembers nothing evaluates anew. -/
theorem settles_evaluate {expr : Expr} {v : Value}
    (h : e.Settles (fun d => Evaluation.eval (host (invoke d)) expr) v) (source : Option String) :
    e.Settles (fun d => evaluate (invoke d) expr source) v := by
  obtain ⟨depth, h⟩ := h
  refine ⟨depth, fun d hd u hu => ?_⟩
  obtain ⟨u', hrun, hu'⟩ := h d hd { u with engine := u.engine.beginEvaluation source }
    ⟨hu.toReady.begin source, hu.caching⟩
  obtain heq | ⟨hcaching, -⟩ := evaluate_cases (invoke d) expr source u
  · have hnothing : remembering u' expr v = u' := by
      rw [remembering, hu'.caching]
      exact if_neg Bool.false_ne_true
    have hcompute := compute_of_eq_ok hrun
    rw [hnothing] at hcompute
    exact ⟨u', heq.trans hcompute, hu'⟩
  · rw [hu.caching] at hcaching
    exact absurd hcaching Bool.false_ne_true

theorem remembering_serves {w : World} (h : w.engine.Serves e) {expr : Expr} {v : Value}
    (hv : e.Gives expr v) : (remembering w expr v).engine.Serves e := by
  unfold remembering
  split
  · exact h.remember hv
  · exact h

theorem remembering_calm {w : World} {expr : Expr} {v : Value}
    (h : (remembering w expr v).Calm) : w.Calm := by
  unfold World.Calm at h
  rw [remembering_events] at h
  exact h

/-- What a calm evaluation comes to is given, so it may be remembered. -/
theorem gives_of_eval (h : Mirrored e inner) {expr : Expr} {w w' : World} {v : Value}
    (hw : w.engine.Serves e) (hrun : Evaluation.eval (host inner) expr w = .ok v w')
    (hcalm : w'.Calm) : e.Gives expr v := fun _ source hsame =>
  settles_evaluate ((mirrors_eval h expr hsame).settles hw hrun hcalm) source

theorem mirrors_compute (h : Mirrored e inner) {expr expr' : Expr} (hsame : expr'.Same expr)
    (source source' : Option String) :
    Mirrors e (compute inner expr source) fun d => evaluate (invoke d) expr' source' where
  walks := walks_compute h.walks expr source
  serves := by
    intro w hw hcalm
    have hbegin : Engine.Serves (w.engine.beginEvaluation source) e := hw.begin source
    have heval := (mirrors_eval h expr hsame).serves
      (w := { w with engine := w.engine.beginEvaluation source }) hbegin
    cases hrun : Evaluation.eval (host inner) expr
        { w with engine := w.engine.beginEvaluation source } with
    | error f w' =>
      rw [hrun] at heval
      rw [compute_of_eq_error hrun] at hcalm ⊢
      exact heval hcalm
    | ok v w' =>
      rw [hrun] at heval
      rw [compute_of_eq_ok hrun] at hcalm ⊢
      -- the value is remembered under the settings after the evaluation: they are those before it
      have hcalm' : w'.Calm := remembering_calm hcalm
      exact remembering_serves (heval hcalm') (gives_of_eval h hbegin hrun hcalm')
  settles := by
    intro w w' v hw hrun hcalm
    have hbegin : Engine.Serves (w.engine.beginEvaluation source) e := hw.begin source
    cases hrun' : Evaluation.eval (host inner) expr
        { w with engine := w.engine.beginEvaluation source } with
    | error f w₁ =>
      rw [compute_of_eq_error hrun'] at hrun
      exact absurd hrun (by simp)
    | ok v' w₁ =>
      rw [compute_of_eq_ok hrun'] at hrun
      obtain ⟨rfl, rfl⟩ := EStateM.Result.ok.inj hrun
      exact gives_of_eval h hbegin hrun' (remembering_calm hcalm) expr' source' hsame

/-- Whether a tree is evaluated anew or its result is recalled, the answer is that of an evaluation
that remembers nothing. -/
theorem mirrors_evaluate (h : Mirrored e inner) {expr expr' : Expr} (hsame : expr'.Same expr)
    (source source' : Option String) :
    Mirrors e (evaluate inner expr source) fun d => evaluate (invoke d) expr' source' where
  walks := walks_evaluate h.walks expr source
  serves := by
    intro w hw hcalm
    obtain heq | ⟨-, v, engine, hr, heq⟩ := evaluate_cases inner expr source w
    · rw [heq] at hcalm ⊢
      exact (mirrors_compute h hsame source source').serves hw hcalm
    · rw [heq]
      exact (hw.reuse hr).1
  settles := by
    intro w w' v hw hrun hcalm
    obtain heq | ⟨-, v', engine, hr, heq⟩ := evaluate_cases inner expr source w
    · rw [heq] at hrun
      exact (mirrors_compute h hsame source source').settles hw hrun hcalm
    · rw [heq] at hrun
      obtain ⟨rfl, -⟩ := EStateM.Result.ok.inj hrun
      exact (hw.reuse hr).2 expr' source' hsame

theorem gives_of_evaluate (h : Mirrored e inner) {expr : Expr} {source : Option String}
    {w w' : World} {v : Value} (hw : w.engine.Serves e)
    (hrun : evaluate inner expr source w = .ok v w') (hcalm : w'.Calm) : e.Gives expr v :=
  fun _ source' hsame => (mirrors_evaluate h hsame source source').settles hw hrun hcalm

theorem mirrors_solve (h : Mirrored e inner) (d : Datum) :
    Mirrors e (solve inner d) fun depth => solve (invoke depth) d :=
  (mirrors_tree d).bind fun _ => mirrors_evaluate h rfl _ _

/-- A value of a text is that of its tree. -/
theorem gives_of_solve (h : Mirrored e inner) {text : String} {w w' : World} {v : Value}
    (hw : w.engine.Serves e) (hrun : solve inner (.str text) w = .ok v w') (hcalm : w'.Calm) :
    ∃ expr, e.freshTree text = .ok expr ∧ e.Gives expr v := by
  obtain ⟨w₁, hbuilt, -, htree⟩ := tree_lands hw.rooted text
  rw [hw.same.freshTree] at htree
  cases hfresh : e.freshTree text with
  | error f =>
    rw [hfresh] at htree
    rw [show solve inner (.str text) w = .error f w₁ from bind_of_eq_error htree] at hrun
    exact absurd hrun (by simp)
  | ok expr =>
    rw [hfresh] at htree
    have hsolve : solve inner (.str text) w = evaluate inner expr (some text) w₁ :=
      bind_of_eq_ok htree
    rw [hsolve] at hrun
    exact ⟨expr, rfl, gives_of_evaluate h (hw.of_built hbuilt) hrun hcalm⟩

/-! ### Steps -/

theorem perform_snapshot (inner : Function → List Value → Run Value) {w : World}
    (hw : w.engine.Ready e) :
    perform inner .snapshot w = .ok (.snapshot ⟨e.tables, e.limits⟩) w := by
  rw [← hw.same.tables, ← hw.same.limits]
  rfl

theorem mirrors_snapshot :
    Mirrors e (perform inner .snapshot) fun d => perform (invoke d) .snapshot :=
  (mirrors_pure (.snapshot ⟨e.tables, e.limits⟩)).of_run (walks_get fun _ => walks_pure _)
    (fun _ hw => perform_snapshot inner hw) fun d _ hu => perform_snapshot (invoke d) hu

theorem mirrors_clearCaches :
    Mirrors e (update Engine.clearCaches) fun _ => update Engine.clearCaches where
  walks := walks_update fun w => .forget w
  serves hw _ := hw.clearCaches
  settles _ _ _ := ⟨0, fun _ _ u hu => ⟨{ u with engine := u.engine.clearCaches }, rfl,
    hu.toReady.clearCaches, hu.caching⟩⟩

/-- A step that changes no settings mirrors one that remembers nothing. -/
theorem mirrors_perform (h : Mirrored e inner) {s : Step} (hs : s.asks = true) :
    Mirrors e (perform inner s) fun d => perform (invoke d) s := by
  match s with
  | .solve d => exact (mirrors_solve h d).bind fun _ => mirrors_pure _
  | .tokenize d => exact (mirrors_tokenize d).bind fun _ => mirrors_pure _
  | .parse none _ => exact (stuck_fault _).mirrors
  | .parse (some ts) source => exact (mirrors_parse ts source).bind fun _ => mirrors_pure _
  | .parseText d source =>
    refine (mirrors_tokenize d).bind fun ts => ?_
    exact (mirrors_parse ts source).bind fun _ => mirrors_pure _
  | .evaluate expr source =>
    exact (mirrors_evaluate h rfl source source).bind fun _ => mirrors_pure _
  | .clearCaches => exact mirrors_clearCaches.bind fun _ => mirrors_pure _
  | .snapshot => exact mirrors_snapshot
  | .invalid cause => exact (stuck_fault cause).mirrors
  | .setOperators _ | .setPrecedence _ | .setOperatorFunctions _ | .addOperator .. |
    .addVariable .. | .addVariables _ | .setVariables _ | .removeVariable _ | .addFunction .. |
    .addFunctions _ | .setFunctions _ | .removeFunction _ | .reset .. =>
    exact absurd hs (by simp [Step.asks])

theorem mirrors_performAll (h : Mirrored e inner) {ss : List Step}
    (hss : ss.all Step.asks = true) (last : Answer) :
    Mirrors e (performAll (perform inner) ss last) fun d =>
      performAll (perform (invoke d)) ss last := by
  induction ss generalizing last with
  | nil => exact mirrors_pure last
  | cons s ss ih =>
    rw [List.all_cons, Bool.and_eq_true] at hss
    exact (mirrors_perform h hss.1).bind fun answer => ih hss.2 answer

end

theorem mirrors_invoke_quiet {f : Function} (hf : f.Quiet) (depth : Nat) (args : List Value) :
    Mirrors e (invoke depth f args) fun d => invoke d f args where
  walks := walks_invoke_quiet hf depth args
  serves := by
    intro w hw _
    rw [invoke_quiet hf, left_outcome]
    exact hw
  settles := by
    intro w w' v _ hrun _
    rw [invoke_quiet hf] at hrun
    cases happly : f.apply args with
    | error failure =>
      rw [happly] at hrun
      exact absurd hrun (by simp [outcome])
    | ok v' =>
      rw [happly] at hrun
      obtain ⟨rfl, -⟩ := EStateM.Result.ok.inj hrun
      refine ⟨0, fun d _ u hu => ⟨u, (invoke_quiet hf d args u).trans ?_, hu⟩⟩
      rw [happly]
      rfl

/-- Calls mirror calls that remember nothing, however deep the steps in them are nested. -/
theorem mirrored_invoke (e : Engine) (depth : Nat) : Mirrored e (invoke depth) := by
  induction depth with
  | zero =>
    refine ⟨walks_invoke 0, fun {f} hf args => ?_⟩
    obtain hquiet | ⟨steps, rfl⟩ := f.quiet_or_script
    · exact mirrors_invoke_quiet hquiet 0 args
    · exact (stuck_fault .nestedTooDeep).mirrors
  | succ depth ih =>
    refine ⟨walks_invoke (depth + 1), fun {f} hf args => ?_⟩
    obtain hquiet | ⟨steps, rfl⟩ := f.quiet_or_script
    · exact mirrors_invoke_quiet hquiet (depth + 1) args
    · have hsteps := (mirrors_performAll ih hf .nothing).bind fun answer =>
        mirrors_pure answer.toValue
      -- the steps run one level deeper than the call
      refine ⟨hsteps.walks, hsteps.serves, fun hw hrun hcalm => ?_⟩
      exact (hsteps.settles hw hrun hcalm).succ fun d => rfl

end Session

end Reckon
