import Reckon.Proofs.Engine.Quiet
/-
  What an engine remembers is what it would find anew. An engine is faithful when every entry of its
  three stores is what a new scan, a new parse and a new evaluation would give under the settings in
  force (`Engine.Faithful`). A faithful engine answers from its stores what it would answer without
  them, and stays faithful: `tokenize_lands`, `tree_lands`, `evaluate_lands` and `solve_lands` say
  for each use what it comes to, in terms of the settings alone.

  Tokens and trees are a matter of texts. To find them anew takes no functions, and working on a
  text changes nothing but what is remembered of texts (`Engine.Built`), whatever the results are.

  A result is remembered for a tree without positions and shared by all texts of that tree. That is
  sound because values do not depend on positions, and because failures, which do, are never
  remembered.
-/
namespace Reckon

/-! ## Stores -/

namespace Cache

variable {κ ν : Type} [DecidableEq κ]

theorem mem_of_find? {c : Cache κ ν} {key : κ} {v : ν} (h : c.find? key = some v) :
    (key, v) ∈ c.entries := by
  obtain ⟨e, he, rfl⟩ := Option.map_eq_some_iff.1 h
  have hkey : e.1 = key := by simpa using List.find?_some he
  rw [← hkey]
  exact List.mem_of_find?_eq_some he

/-- Finding a key brings in no entry. -/
theorem mem_of_get? {c : Cache κ ν} {key : κ} {v : ν} (h : (c.get? key).1 = some v) :
    (key, v) ∈ c.entries ∧ ∀ e ∈ (c.get? key).2.entries, e ∈ c.entries := by
  unfold get? at h ⊢
  cases hf : c.find? key with
  | none =>
    rw [hf] at h
    exact absurd h (by simp)
  | some u =>
    rw [hf] at h
    obtain rfl := Option.some.inj h
    have hmem := mem_of_find? hf
    refine ⟨hmem, fun e he => ?_⟩
    rcases List.mem_append.1 he with he | he
    · exact (List.mem_filter.1 he).1
    · rw [List.mem_singleton.1 he]
      exact hmem

/-- Setting a key brings in one entry. -/
theorem mem_of_mem_set {c : Cache κ ν} {key : κ} {v : ν} {e : κ × ν}
    (h : e ∈ (c.set key v).entries) : e = (key, v) ∨ e ∈ c.entries := by
  have hmem : e ∈ c.others key ++ [(key, v)] := List.mem_of_mem_drop h
  rcases List.mem_append.1 hmem with h | h
  · exact Or.inr (List.mem_filter.1 h).1
  · exact Or.inl (List.mem_singleton.1 h)

end Cache

/-! ## Faithful engines -/

namespace Engine

/-- The tokens of a text, by a new scan. -/
def freshTokens (e : Engine) (text : String) : Except Failure (List Token) :=
  Token.ofText e.trie e.limits text

/-- The expression that tokens denote. -/
def freshParse (e : Engine) (ts : List Token) (source : Option String) : Except Failure Expr :=
  (Parser.parse e.tables.precedence e.limits source ts).1

/-- The tree of a text, by a new scan and a new parse. -/
def freshTree (e : Engine) (text : String) : Except Failure Expr := do
  let ts ← e.freshTokens text
  e.freshParse ts (some text)

/-- The value of a tree, by a new evaluation. -/
def freshValue (e : Engine) (expr : Expr) (source : Option String) : Except Failure Value :=
  (expr.evaluate ⟨e.tables.bindings, e.tables.operatorFunctions, e.tables.functions, source⟩).result

/-- The value of a text, by a new scan, a new parse and a new evaluation. -/
def freshSolution (e : Engine) (text : String) : Except Failure Value := do
  let expr ← e.freshTree text
  e.freshValue expr (some text)

/-- What is remembered of texts is what would be found anew. -/
structure Rooted (e : Engine) : Prop where
  tokens : ∀ text ts, (text, ts) ∈ e.tokens.entries → e.freshTokens text = .ok ts
  trees : ∀ text expr, (text, expr) ∈ e.trees.entries → e.freshTree text = .ok expr

/-- Everything that is remembered is what would be found anew. -/
structure Faithful (e : Engine) : Prop where
  tokens : ∀ text ts, (text, ts) ∈ e.tokens.entries → e.freshTokens text = .ok ts
  trees : ∀ text expr, (text, expr) ∈ e.trees.entries → e.freshTree text = .ok expr
  results : ∀ key v, (key, v) ∈ e.results.entries →
    ∀ (expr : Expr) (source : Option String), expr.bare = key.bare →
      e.freshValue expr source = .ok v

/-- Engines with the same settings. -/
structure SameSettings (e e' : Engine) : Prop where
  limits : e.limits = e'.limits
  tables : e.tables = e'.tables
  trie : e.trie = e'.trie

namespace SameSettings

variable {e e' e'' : Engine}

theorem refl (e : Engine) : e.SameSettings e := ⟨rfl, rfl, rfl⟩

theorem symm (h : e.SameSettings e') : e'.SameSettings e :=
  ⟨h.limits.symm, h.tables.symm, h.trie.symm⟩

theorem trans (h : e.SameSettings e') (h' : e'.SameSettings e'') : e.SameSettings e'' :=
  ⟨h.limits.trans h'.limits, h.tables.trans h'.tables, h.trie.trans h'.trie⟩

theorem freshTokens (h : e.SameSettings e') (text : String) :
    e.freshTokens text = e'.freshTokens text := by
  unfold Engine.freshTokens
  rw [h.limits, h.trie]

theorem freshParse (h : e.SameSettings e') (ts : List Token) (source : Option String) :
    e.freshParse ts source = e'.freshParse ts source := by
  unfold Engine.freshParse
  rw [h.limits, h.tables]

theorem freshTree (h : e.SameSettings e') (text : String) :
    e.freshTree text = e'.freshTree text := by
  unfold Engine.freshTree
  rw [h.freshTokens]
  congr 1
  funext ts
  exact h.freshParse ts _

theorem freshValue (h : e.SameSettings e') (expr : Expr) (source : Option String) :
    e.freshValue expr source = e'.freshValue expr source := by
  unfold Engine.freshValue
  rw [h.tables]

theorem freshSolution (h : e.SameSettings e') (text : String) :
    e.freshSolution text = e'.freshSolution text := by
  unfold Engine.freshSolution
  rw [h.freshTree]
  congr 1
  funext expr
  exact h.freshValue expr _

end SameSettings

namespace ChangedIn

variable {a : Aim} {e e' : Engine}

/-- A change that leaves the tokens leaves what texts are scanned with. -/
theorem freshTokens (h : e.ChangedIn a e') (ha : a.rescans = false) (text : String) :
    e'.freshTokens text = e.freshTokens text := by
  have htrie := h.trie
  rw [ha] at htrie
  unfold Engine.freshTokens
  rw [htrie, h.limits]
  rfl

/-- A change that leaves the trees leaves what texts are parsed with, too. -/
theorem freshTree (h : e.ChangedIn a e') (ha : a.reparses = false) (text : String) :
    e'.freshTree text = e.freshTree text := by
  have hprecedence : e'.tables.precedence = e.tables.precedence := by
    rw [h.tables]
    exact Aim.splice_precedence ha _ _
  unfold Engine.freshTree Engine.freshParse
  rw [h.freshTokens (Aim.rescans_of_reparses ha), hprecedence, h.limits]

end ChangedIn

namespace Rooted

variable {e e' : Engine}

/-- With the same settings, what is remembered less is still what would be found anew. -/
theorem of_subset (h : e.Rooted) (hs : e'.SameSettings e)
    (htokens : ∀ x ∈ e'.tokens.entries, x ∈ e.tokens.entries)
    (htrees : ∀ x ∈ e'.trees.entries, x ∈ e.trees.entries) : e'.Rooted where
  tokens := by
    intro text ts hm
    rw [hs.freshTokens]
    exact h.tokens text ts (htokens _ hm)
  trees := by
    intro text expr hm
    rw [hs.freshTree]
    exact h.trees text expr (htrees _ hm)

/-- An engine that remembers nothing. -/
theorem clearCaches (e : Engine) : e.clearCaches.Rooted :=
  ⟨fun _ _ hm => absurd hm List.not_mem_nil, fun _ _ hm => absurd hm List.not_mem_nil⟩

theorem setTokens (h : e.Rooted) {text : String} {ts : List Token}
    (hfresh : e.freshTokens text = .ok ts) :
    ({ e with tokens := e.tokens.set text ts } : Engine).Rooted := by
  refine ⟨fun text' ts' hm => ?_, h.trees⟩
  rcases Cache.mem_of_mem_set hm with heq | hm
  · obtain ⟨rfl, rfl⟩ := Prod.mk.inj heq
    exact hfresh
  · exact h.tokens text' ts' hm

theorem setTree (h : e.Rooted) {text : String} {expr : Expr}
    (hfresh : e.freshTree text = .ok expr) :
    ({ e with trees := e.trees.set text expr } : Engine).Rooted := by
  refine ⟨h.tokens, fun text' expr' hm => ?_⟩
  rcases Cache.mem_of_mem_set hm with heq | hm
  · obtain ⟨rfl, rfl⟩ := Prod.mk.inj heq
    exact hfresh
  · exact h.trees text' expr' hm

/-- A change of settings forgets what would be found otherwise. -/
theorem changedIn (h : e.Rooted) {a : Aim} (hc : e.ChangedIn a e') : e'.Rooted where
  tokens := by
    intro text ts hm
    rw [hc.tokens] at hm
    cases ha : a.rescans with
    | true =>
      rw [ha] at hm
      exact absurd hm List.not_mem_nil
    | false =>
      rw [ha] at hm
      rw [hc.freshTokens ha]
      exact h.tokens text ts hm
  trees := by
    intro text expr hm
    rw [hc.trees] at hm
    cases ha : a.reparses with
    | true =>
      rw [ha] at hm
      exact absurd hm List.not_mem_nil
    | false =>
      rw [ha] at hm
      rw [hc.freshTree ha]
      exact h.trees text expr hm

end Rooted

namespace Faithful

variable {e e' : Engine}

theorem rooted (h : e.Faithful) : e.Rooted := ⟨h.tokens, h.trees⟩

/-- With the same settings and no more results, results are still what would be found anew. -/
theorem of_rooted (h : e.Faithful) (hr : e'.Rooted) (hs : e'.SameSettings e)
    (hresults : ∀ x ∈ e'.results.entries, x ∈ e.results.entries) : e'.Faithful where
  tokens := hr.tokens
  trees := hr.trees
  results := by
    intro key v hm expr source hbare
    rw [hs.freshValue]
    exact h.results key v (hresults _ hm) expr source hbare

/-- A result may be remembered for all trees that differ in positions only. -/
theorem setResult (h : e.Faithful) {expr : Expr} {source : Option String} {v : Value}
    (hfresh : e.freshValue expr source = .ok v) :
    ({ e with results := e.results.set expr.bare v } : Engine).Faithful := by
  refine ⟨h.tokens, h.trees, fun key v' hm expr' source' hbare => ?_⟩
  rcases Cache.mem_of_mem_set hm with heq | hm
  · obtain ⟨rfl, rfl⟩ := Prod.mk.inj heq
    have hmatches : Scope.Matches
        ⟨e.tables.bindings, e.tables.operatorFunctions, e.tables.functions, source⟩
        ⟨e.tables.bindings, e.tables.operatorFunctions, e.tables.functions, source'⟩ :=
      ⟨rfl, rfl, rfl⟩
    rw [Expr.bare_bare] at hbare
    exact Expr.evaluate_result_of_bare hbare.symm hmatches hfresh
  · exact h.results key v' hm expr' source' hbare

end Faithful

end Engine

/-! ## Uses -/

/-- A relation between an engine and what becomes of it. -/
class Lasting (R : Engine → Engine → Prop) : Prop where
  trans : ∀ {e e' e''}, R e e' → R e' e'' → R e e''
  after : ∀ {e e'}, R e e' → R e' e'

/-- An engine after a text was worked on. What it remembers of texts may be different, and nothing
else is. -/
structure Engine.Built (e e' : Engine) : Prop where
  same : e'.SameSettings e
  caching : e'.caching = e.caching
  results : e'.results = e.results
  evaluating : e'.evaluating = e.evaluating
  rooted : e'.Rooted

theorem Engine.Rooted.built {e : Engine} (h : e.Rooted) : e.Built e := ⟨.refl e, rfl, rfl, rfl, h⟩

instance : Lasting Engine.Built where
  trans h h' := ⟨h'.same.trans h.same, h'.caching.trans h.caching, h'.results.trans h.results,
    h'.evaluating.trans h.evaluating, h'.rooted⟩
  after h := h.rooted.built

/-- An engine after it was asked for a value. -/
structure Engine.Answered (e e' : Engine) : Prop where
  same : e'.SameSettings e
  faithful : e'.Faithful

theorem Engine.Faithful.answered {e : Engine} (h : e.Faithful) : e.Answered e := ⟨.refl e, h⟩

instance : Lasting Engine.Answered where
  trans h h' := ⟨h'.same.trans h.same, h'.faithful⟩
  after h := h.faithful.answered

theorem Engine.Built.answered {e e' : Engine} (h : e.Built e') (hf : e.Faithful) :
    e.Answered e' := by
  refine ⟨h.same, hf.of_rooted h.rooted h.same fun x hx => ?_⟩
  rw [h.results] at hx
  exact hx

namespace Session

variable {α β : Type} {R R' : Engine → Engine → Prop} {w : World}

/-- A use comes to an outcome, and leaves an engine that stands in a relation to the one before.
What has happened stays. -/
def Lands (R : Engine → Engine → Prop) (m : Run α) (w : World) (r : Except Failure α) : Prop :=
  ∃ w', R w.engine w'.engine ∧ w.events <+: w'.events ∧ m w = outcome r w'

theorem lands_pure (h : R w.engine w.engine) (a : α) : Lands R (pure a) w (.ok a) :=
  ⟨w, h, List.prefix_rfl, rfl⟩

theorem lands_throw (h : R w.engine w.engine) (f : Failure) :
    Lands R (throw f : Run α) w (.error f) := ⟨w, h, List.prefix_rfl, rfl⟩

theorem lands_emit (h : R w.engine w.engine) (event : Event) : Lands R (emit event) w (.ok ()) :=
  ⟨{ w with events := w.events ++ [event] }, h, List.prefix_append .., rfl⟩

theorem lands_update {f : Engine → Engine} (h : R w.engine (f w.engine)) :
    Lands R (update f) w (.ok ()) :=
  ⟨{ w with engine := f w.engine }, h, List.prefix_rfl, rfl⟩

theorem Lands.mono {m : Run α} {r : Except Failure α} (h : Lands R m w r)
    (hR : ∀ e', R w.engine e' → R' w.engine e') : Lands R' m w r := by
  obtain ⟨w', hw', hevents, hm⟩ := h
  exact ⟨w', hR _ hw', hevents, hm⟩

theorem Lands.of_eq {m : Run α} {r r' : Except Failure α} (h : Lands R m w r) (hr : r = r') :
    Lands R m w r' := hr ▸ h

/-- A computation may read the engine first. -/
theorem Lands.get {k : World → Run α} {r : Except Failure α} (h : Lands R (k w) w r) :
    Lands R (get >>= k) w r := h

/-- A text whose answer is remembered is not worked on. -/
theorem lands_consult {store : String → Engine → Option α × Engine} {text : String}
    {otherwise : Run α} {r : Except Failure α}
    (hit : ∀ a e, store text w.engine = (some a, e) → R w.engine e ∧ r = .ok a)
    (miss : Lands R otherwise w r) : Lands R (consult store (.str text) pure otherwise) w r := by
  have hkey : ¬ (!(Datum.str text).isKey) = true := Bool.false_ne_true
  unfold consult
  rw [if_neg hkey]
  rcases hstored : store text w.engine with ⟨_ | a, e⟩
  · obtain ⟨w', hw', hevents, hm⟩ := miss
    refine ⟨w', hw', hevents, ?_⟩
    dsimp only
    rw [hstored]
    exact hm
  · obtain ⟨he, rfl⟩ := hit a e hstored
    refine ⟨{ w with engine := e }, he, List.prefix_rfl, ?_⟩
    dsimp only
    rw [hstored]
    rfl

section

variable [Lasting R]

theorem Lands.bind {m : Run α} {k : α → Run β} {r : Except Failure α}
    {r' : α → Except Failure β} (h : Lands R m w r)
    (hk : ∀ a w', r = .ok a → R w.engine w'.engine → Lands R (k a) w' (r' a)) :
    Lands R (m >>= k) w (r >>= r') := by
  obtain ⟨w', hw', hevents, hm⟩ := h
  show Lands R (EStateM.bind m k) w _
  cases r with
  | error f =>
    refine ⟨w', hw', hevents, ?_⟩
    unfold EStateM.bind
    rw [hm]
    rfl
  | ok a =>
    obtain ⟨w'', hw'', hevents', hk⟩ := hk a w' rfl hw'
    refine ⟨w'', Lasting.trans hw' hw'', hevents.trans hevents', ?_⟩
    unfold EStateM.bind
    rw [hm]
    exact hk

/-- After a part that gives an answer, the rest decides. -/
theorem Lands.andThen {m : Run α} {k : α → Run β} {a : α} {r : Except Failure β}
    (h : Lands R m w (.ok a)) (hk : ∀ w', R w.engine w'.engine → Lands R (k a) w' r) :
    Lands R (m >>= k) w r := by
  have hrest : ∀ a' w', (.ok a : Except Failure α) = .ok a' → R w.engine w'.engine →
      Lands R (k a') w' r := by
    intro a' w' ha hw'
    rw [← Except.ok.inj ha]
    exact hk w' hw'
  exact h.bind hrest

/-- What runs alike, from what became of the engine, comes to the same. -/
theorem Lands.of_run {m m' : Run α} {w₁ : World} {r : Except Failure α}
    (hR : R w.engine w₁.engine) (hevents : w.events <+: w₁.events) (hm : m w = m' w₁)
    (h : Lands R m' w₁ r) : Lands R m w r := by
  obtain ⟨w', hw', hevents', hm'⟩ := h
  exact ⟨w', Lasting.trans hR hw', hevents.trans hevents', hm.trans hm'⟩

/-- An answer may be remembered before it is given, or not. -/
theorem lands_remember {f : Engine → Engine} (h : R w.engine w.engine)
    (hf : R w.engine (f w.engine)) (caching : Bool) (a : α) :
    Lands R (if caching = true then do update f; pure a else pure a) w (.ok a) := by
  cases caching with
  | false => exact lands_pure h a
  | true => exact (lands_update hf).andThen fun w' hw' => lands_pure (Lasting.after hw') a

end

/-! ### Tokens -/

theorem recallTokens_spec {e e' : Engine} (h : e.Rooted) {text : String} {ts : List Token}
    (hr : recallTokens text e = (some ts, e')) : e.Built e' ∧ e.freshTokens text = .ok ts := by
  unfold recallTokens at hr
  obtain ⟨hv, rfl⟩ := Prod.mk.inj hr
  obtain ⟨hmem, hsub⟩ := Cache.mem_of_get? hv
  have hrooted : ({ e with tokens := (e.tokens.get? text).2 } : Engine).Rooted :=
    h.of_subset ⟨rfl, rfl, rfl⟩ hsub fun _ hx => hx
  exact ⟨⟨⟨rfl, rfl, rfl⟩, rfl, rfl, rfl, hrooted⟩, h.tokens text ts hmem⟩

theorem scan_lands (h : w.engine.Rooted) (text : String) :
    Lands Engine.Built (scan (.str text)) w (w.engine.freshTokens text) := by
  unfold scan Engine.freshTokens
  refine Lands.get ?_
  dsimp only
  cases hts : Token.ofText w.engine.trie w.engine.limits text with
  | error f => exact lands_throw h.built f
  | ok ts =>
    refine (lands_emit h.built _).andThen fun w' hw' => ?_
    have hts' : w'.engine.freshTokens text = .ok ts := (hw'.same.freshTokens text).trans hts
    exact lands_remember hw'.rooted.built
      ⟨⟨rfl, rfl, rfl⟩, rfl, rfl, rfl, hw'.rooted.setTokens hts'⟩ _ ts

/-- The tokens of a text are those of a new scan. -/
theorem tokenize_lands (h : w.engine.Rooted) (text : String) :
    Lands Engine.Built (tokenize (.str text)) w (w.engine.freshTokens text) := by
  show Lands _ (if w.engine.caching = true then
    consult recallTokens (.str text) pure (scan (.str text)) else scan (.str text)) w _
  split
  · exact lands_consult (fun ts e hr => recallTokens_spec h hr) (scan_lands h text)
  · exact scan_lands h text

/-! ### Trees -/

theorem recallTree_spec {e e' : Engine} (h : e.Rooted) {text : String} {expr : Expr}
    (hr : recallTree text e = (some expr, e')) : e.Built e' ∧ e.freshTree text = .ok expr := by
  unfold recallTree at hr
  obtain ⟨hv, rfl⟩ := Prod.mk.inj hr
  obtain ⟨hmem, hsub⟩ := Cache.mem_of_get? hv
  have hrooted : ({ e with trees := (e.trees.get? text).2 } : Engine).Rooted :=
    h.of_subset ⟨rfl, rfl, rfl⟩ (fun _ hx => hx) hsub
  exact ⟨⟨⟨rfl, rfl, rfl⟩, rfl, rfl, rfl, hrooted⟩, h.trees text expr hmem⟩

theorem parse_lands (h : w.engine.Rooted) (ts : List Token) (source : Option String) :
    Lands Engine.Built (parse ts source) w (w.engine.freshParse ts source) := by
  unfold parse Engine.freshParse
  refine Lands.get ?_
  dsimp only
  rcases Parser.parse w.engine.tables.precedence w.engine.limits source ts with ⟨f | expr, cursor⟩
  · exact lands_throw h.built f
  · exact (lands_emit h.built _).andThen fun w' hw' => lands_pure hw'.rooted.built expr

theorem parseText_lands (h : w.engine.Rooted) (text : String) (source : Option String) :
    Lands Engine.Built (do let ts ← tokenize (.str text); parse ts source) w
      (w.engine.freshTokens text >>= fun ts => w.engine.freshParse ts source) := by
  refine (tokenize_lands h text).bind fun ts w' _ hw' => ?_
  exact (parse_lands hw'.rooted ts source).of_eq (hw'.same.freshParse ts source)

theorem buildTree_lands (h : w.engine.Rooted) (text : String) :
    Lands Engine.Built (buildTree (.str text)) w (w.engine.freshTree text) := by
  have hbuild : buildTree (.str text) w = (do
      let expr ← (do let ts ← tokenize (.str text); parse ts (some text) : Run Expr)
      let w' ← get
      if w'.engine.caching = true then
        do update fun e => { e with trees := e.trees.set text expr }; pure expr
      else pure expr : Run Expr) w := by
    rw [bind_assoc]
    rfl
  refine .of_run h.built List.prefix_rfl hbuild ?_
  have hremember : ∀ expr w', w.engine.freshTree text = .ok expr → w.engine.Built w'.engine →
      Lands Engine.Built (do
        let w' ← get
        if w'.engine.caching = true then
          do update fun e => { e with trees := e.trees.set text expr }; pure expr
        else pure expr : Run Expr) w' (pure expr) := by
    intro expr w' hr hw'
    have hr' : w'.engine.freshTree text = .ok expr := by rw [hw'.same.freshTree, hr]
    exact lands_remember hw'.rooted.built
      ⟨⟨rfl, rfl, rfl⟩, rfl, rfl, rfl, hw'.rooted.setTree hr'⟩ _ expr
  exact ((parseText_lands h text (some text)).bind hremember).of_eq (bind_pure _)

/-- The tree of a text is that of a new parse. -/
theorem tree_lands (h : w.engine.Rooted) (text : String) :
    Lands Engine.Built (tree (.str text)) w (w.engine.freshTree text) := by
  show Lands _ (if w.engine.caching = true then
    consult recallTree (.str text) pure (buildTree (.str text)) else buildTree (.str text)) w _
  split
  · exact lands_consult (fun expr e hr => recallTree_spec h hr) (buildTree_lands h text)
  · exact buildTree_lands h text

/-! ### Values -/

theorem recallResult_spec {e e' : Engine} (h : e.Faithful) {expr : Expr} {v : Value}
    (hr : recallResult expr e = (some v, e')) (source : Option String) :
    e.Answered e' ∧ e.freshValue expr source = .ok v := by
  unfold recallResult at hr
  obtain ⟨hv, rfl⟩ := Prod.mk.inj hr
  obtain ⟨hmem, hsub⟩ := Cache.mem_of_get? hv
  refine ⟨⟨⟨rfl, rfl, rfl⟩, h.of_rooted ⟨h.tokens, h.trees⟩ ⟨rfl, rfl, rfl⟩ hsub⟩, ?_⟩
  exact h.results expr.bare v hmem expr source expr.bare_bare.symm

theorem eval_lands (h : w.engine.Faithful) (hq : w.engine.scope.Quiet) (depth : Nat)
    (expr : Expr) :
    Lands Engine.Answered (Evaluation.eval (host (invoke depth)) expr) w
      (expr.evaluate w.engine.scope).result :=
  ⟨⟨w.engine, w.events ++ _⟩, h.answered, List.prefix_append .., eval_eq hq depth expr⟩

/-- An engine at work after an evaluation, with what it came to remembered if anything is. -/
def remembering (w : World) (expr : Expr) (v : Value) : World :=
  if w.engine.caching then
    { w with engine := { w.engine with results := w.engine.results.set expr.bare v } }
  else w

theorem compute_of_eq_error {inner : Function → List Value → Run Value} {expr : Expr}
    {source : Option String} {w w' : World} {f : Failure}
    (h : Evaluation.eval (host inner) expr { w with engine := w.engine.beginEvaluation source }
      = .error f w') : compute inner expr source w = .error f w' := by
  have hbegin : update (·.beginEvaluation source) w
      = .ok () { w with engine := w.engine.beginEvaluation source } := rfl
  exact (bind_of_eq_ok hbegin).trans (bind_of_eq_error h)

theorem compute_of_eq_ok {inner : Function → List Value → Run Value} {expr : Expr}
    {source : Option String} {w w' : World} {v : Value}
    (h : Evaluation.eval (host inner) expr { w with engine := w.engine.beginEvaluation source }
      = .ok v w') : compute inner expr source w = .ok v (remembering w' expr v) := by
  have hbegin : update (·.beginEvaluation source) w
      = .ok () { w with engine := w.engine.beginEvaluation source } := rfl
  refine (bind_of_eq_ok hbegin).trans ((bind_of_eq_ok h).trans ?_)
  show (if w'.engine.caching = true then _ else _ : Run Value) w' = _
  unfold remembering
  by_cases hcaching : w'.engine.caching = true
  · rw [if_pos hcaching, if_pos hcaching]
    rfl
  · rw [if_neg hcaching, if_neg hcaching]
    rfl

theorem remembering_events (w : World) (expr : Expr) (v : Value) :
    (remembering w expr v).events = w.events := by
  unfold remembering
  split
  · rfl
  · rfl

theorem answered_remembering (h : w.engine.Faithful) {expr : Expr} {source : Option String}
    {v : Value} (hv : w.engine.freshValue expr source = .ok v) :
    w.engine.Answered (remembering w expr v).engine := by
  unfold remembering
  split
  · exact ⟨⟨rfl, rfl, rfl⟩, h.setResult hv⟩
  · exact h.answered

theorem compute_lands (h : w.engine.Faithful) (hq : w.engine.tables.Every Function.Quiet)
    (depth : Nat) (expr : Expr) (source : Option String) :
    Lands Engine.Answered (compute (invoke depth) expr source) w
      (w.engine.freshValue expr source) := by
  have hbegun : w.engine.Answered (w.engine.beginEvaluation source) :=
    ⟨⟨rfl, rfl, rfl⟩, h.tokens, h.trees, h.results⟩
  have hquiet : (w.engine.beginEvaluation source).scope.Quiet := fun _ hf =>
    hq.scope Function.quiet_native source hf
  obtain ⟨w', hanswered, hevents, hrun⟩ :=
    eval_lands (w := { w with engine := w.engine.beginEvaluation source }) hbegun.faithful hquiet
      depth expr
  have hw' : w.engine.Answered w'.engine := Lasting.trans hbegun hanswered
  have hfresh : (expr.evaluate (w.engine.beginEvaluation source).scope).result
      = w.engine.freshValue expr source := rfl
  rw [hfresh] at hrun
  cases hv : w.engine.freshValue expr source with
  | error f =>
    rw [hv] at hrun
    exact ⟨w', hw', hevents, compute_of_eq_error hrun⟩
  | ok v =>
    rw [hv] at hrun
    have hv' : w'.engine.freshValue expr source = .ok v := by rw [hw'.same.freshValue, hv]
    rw [← remembering_events w' expr v] at hevents
    exact ⟨remembering w' expr v, Lasting.trans hw' (answered_remembering hw'.faithful hv'),
      hevents, compute_of_eq_ok hrun⟩

/-- A tree is evaluated anew, or its result is recalled. -/
theorem evaluate_cases (inner : Function → List Value → Run Value) (expr : Expr)
    (source : Option String) (w : World) :
    evaluate inner expr source w = compute inner expr source w
      ∨ w.engine.caching = true ∧ ∃ v engine, recallResult expr w.engine = (some v, engine)
        ∧ evaluate inner expr source w = .ok v { w with engine } := by
  show (if w.engine.caching = true then _ else _ : Run Value) w = _ ∨ _
  by_cases hcaching : w.engine.caching = true
  · rcases hr : recallResult expr w.engine with ⟨_ | v, engine⟩
    · left
      rw [if_pos hcaching]
    · right
      refine ⟨hcaching, v, engine, rfl, ?_⟩
      show (if w.engine.caching = true then _ else _ : Run Value) w = _
      rw [if_pos hcaching, hr]
      rfl
  · left
    rw [if_neg hcaching]

/-- The value of a tree is that of a new evaluation. -/
theorem evaluate_lands (h : w.engine.Faithful) (hq : w.engine.tables.Every Function.Quiet)
    (depth : Nat) (expr : Expr) (source : Option String) :
    Lands Engine.Answered (evaluate (invoke depth) expr source) w
      (w.engine.freshValue expr source) := by
  obtain heq | ⟨-, v, engine, hr, heq⟩ := evaluate_cases (invoke depth) expr source w
  · exact .of_run h.answered List.prefix_rfl heq (compute_lands h hq depth expr source)
  · obtain ⟨hanswered, hv⟩ := recallResult_spec h hr source
    rw [hv]
    exact ⟨{ w with engine }, hanswered, List.prefix_rfl, heq⟩

/-- The value of a text is that of a new evaluation of its new tree. -/
theorem solve_lands (h : w.engine.Faithful) (hq : w.engine.tables.Every Function.Quiet)
    (depth : Nat) (text : String) :
    Lands Engine.Answered (solve (invoke depth) (.str text)) w (w.engine.freshSolution text) := by
  have htree := (tree_lands h.rooted text).mono fun e' he' => he'.answered h
  refine htree.bind fun expr w' _ hw' => ?_
  have hquiet : w'.engine.tables.Every Function.Quiet := by
    rw [hw'.same.tables]
    exact hq
  exact (evaluate_lands hw'.faithful hquiet depth expr (some text)).of_eq
    (hw'.same.freshValue expr (some text))

end Session

end Reckon
