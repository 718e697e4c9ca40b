import Reckon.Proofs.Engine.Containment
/-
  Errors have a place. An error that solving a text comes to shows the text, and its position lies
  in the text: it is that of a problem of the letters, of a token that is complained about or the
  end, or of the node that breaks. A node has the position of its token, so an error of the
  evaluation is at the literal, the name or the operator that it is about (`Engine.solve_located`).

  This takes functions that know no places themselves. Operators may come to bare faults only, which
  is true of the standard ones; functions may reject their arguments as well, without a place, as
  the built-in ones do.
-/
namespace Reckon

/-! ## Functions that know no places -/

namespace Function

/-- A function that comes to contained faults only. -/
def RaisesContained (f : Function) : Prop :=
  ∀ args e, f.apply args = .error e → ∃ fault, e = .fault fault ∧ fault.kind.isContained = true

/-- One of the standard operator functions. -/
def IsStandard (f : Function) : Prop :=
  (∃ op, OperatorFunctions.default.unary.find? op = some f)
    ∨ ∃ op, OperatorFunctions.default.binary.find? op = some f

def IsBuiltin (f : Function) : Prop := ∃ b, f = Builtin.function b

/-- A function that comes to bare faults only. -/
def RaisesFaults (f : Function) : Prop :=
  ∀ args e, f.apply args = .error e → ∃ fault, e = .fault fault

/-- A function that comes to bare faults, or rejects its arguments without a place. -/
def Placeless (f : Function) : Prop :=
  ∀ args e, f.apply args = .error e → (∃ fault, e = .fault fault)
    ∨ ∃ err name reason, e = .error err ∧ err.problem = .rejected name reason
      ∧ err.position = none

theorem RaisesContained.raisesFaults {f : Function} (h : f.RaisesContained) : f.RaisesFaults := by
  intro args e he
  obtain ⟨fault, rfl, -⟩ := h args e he
  exact ⟨fault, rfl⟩

theorem RaisesFaults.placeless {f : Function} (h : f.RaisesFaults) : f.Placeless :=
  fun args e he => Or.inl (h args e he)

theorem exists_fault_of_mapError {α : Type} {r : Except Fault α} {e : Failure}
    (h : r.mapError Failure.fault = .error e) : ∃ fault, e = .fault fault := by
  cases r with
  | ok a =>
    have hok : (Except.ok a : Except Failure α) = .error e := h
    exact absurd hok (by simp)
  | error fault => exact ⟨fault, (Except.error.inj h).symm⟩

theorem raisesFaults_ofBinary (name : String) (f : Value → Value → Except Fault Value) :
    (OperatorFunctions.ofBinary name f).RaisesFaults := by
  intro args e he
  match args with
  | [a, b] => exact exists_fault_of_mapError he
  | [] | [_] | _ :: _ :: _ :: _ => exact ⟨_, (Except.error.inj he).symm⟩

theorem raisesFaults_negation : OperatorFunctions.negation.RaisesFaults := by
  intro args e he
  match args with
  | [a] => exact exists_fault_of_mapError he
  | [] | _ :: _ :: _ => exact ⟨_, (Except.error.inj he).symm⟩

theorem raisesFaults_power : OperatorFunctions.power.RaisesFaults := by
  intro args e he
  match args with
  | [a, b] => exact exists_fault_of_mapError he
  | [] | [_] | _ :: _ :: _ :: _ => exact ⟨_, (Except.error.inj he).symm⟩

/-- The standard operators come to bare faults only. -/
theorem IsStandard.raisesFaults {f : Function} (h : f.IsStandard) : f.RaisesFaults := by
  obtain ⟨op, hf⟩ | ⟨op, hf⟩ := h
  · have hmem := Table.mem_of_find? hf
    obtain ⟨-, rfl⟩ := Prod.mk.inj (List.mem_singleton.1 hmem)
    exact raisesFaults_negation
  · have hmem := Table.mem_of_find? hf
    simp only [OperatorFunctions.default, List.mem_cons, List.not_mem_nil, or_false,
      Prod.mk.injEq] at hmem
    rcases hmem with ⟨-, rfl⟩ | ⟨-, rfl⟩ | ⟨-, rfl⟩ | ⟨-, rfl⟩ | ⟨-, rfl⟩ | ⟨-, rfl⟩
    · exact raisesFaults_ofBinary _ _
    · exact raisesFaults_ofBinary _ _
    · exact raisesFaults_ofBinary _ _
    · exact raisesFaults_ofBinary _ _
    · exact raisesFaults_ofBinary _ _
    · exact raisesFaults_power

/-- The built-in functions know no places. -/
theorem IsBuiltin.placeless {f : Function} (h : f.IsBuiltin) : f.Placeless := by
  obtain ⟨b, rfl⟩ := h
  intro args e he
  have hrun : b.run args = .error e := he
  unfold Builtin.run at hrun
  split at hrun
  · exact Or.inl (exists_fault_of_mapError hrun)
  · exact Or.inl (exists_fault_of_mapError hrun)
  · exact Or.inr ⟨_, _, _, (Except.error.inj hrun).symm, rfl, rfl⟩

end Function

/-! ## Nodes that break -/

namespace Evaluation

variable {source : Option String} {err : Error}

theorem operatorFailure_located {op : String} {position : Int} {fault : Fault}
    (h : operatorFailure op position source (.fault fault) = .error err) :
    err.position = some position ∧ err.expression = source := by
  unfold operatorFailure at h
  by_cases hc : fault.kind.isContained = true
  · simp only [hc, if_true] at h
    rw [← Failure.error.inj h]
    exact ⟨rfl, rfl⟩
  · simp only [hc, Bool.false_eq_true, if_false] at h
    exact absurd h (by simp)

theorem callFailure_located {name : String} {position : Option Int} {e : Failure}
    (he : (∃ fault, e = .fault fault) ∨ ∃ err name reason, e = .error err
      ∧ err.problem = .rejected name reason ∧ err.position = none)
    (h : callFailure name position source e = .error err) :
    err.position = position ∧ err.expression = source := by
  obtain ⟨fault, rfl⟩ | ⟨⟨problem, place, expression, cause⟩, other, reason, rfl, hproblem, hplace⟩
    := he
  · unfold callFailure at h
    by_cases hc : fault.kind.isContained = true
    · simp only [hc, if_true] at h
      rw [← Failure.error.inj h]
      exact ⟨rfl, rfl⟩
    · simp only [hc, Bool.false_eq_true, if_false] at h
      exact absurd h (by simp)
  · obtain rfl : problem = _ := hproblem
    obtain rfl : place = none := hplace
    rw [← Failure.error.inj h]
    exact ⟨rfl, rfl⟩

end Evaluation

/-- A scope whose functions know no places. -/
structure Scope.Placeless (s : Scope) : Prop where
  operators : s.operators.Every Function.RaisesFaults
  functions : Table.Every Function.Placeless s.functions

theorem Scope.Placeless.function {s : Scope} (h : s.Placeless) {name : String} {f : Function}
    (hf : s.function? name = some f) : f.Placeless := by
  obtain hfind | hbuiltin := Scope.of_function hf
  · exact h.functions name f hfind
  · exact Function.IsBuiltin.placeless hbuiltin

theorem Scope.placeless_of_raises {bindings : Table Value} {operators : OperatorFunctions}
    {functions : Table Function} {source : Option String}
    (hoperators : operators.Every fun f => f.IsStandard ∨ f.RaisesContained)
    (hfunctions : Table.Every (fun f => f.IsBuiltin ∨ f.RaisesContained) functions) :
    Scope.Placeless ⟨bindings, operators, functions, source⟩ where
  operators := by
    have hraises : ∀ f : Function, f.IsStandard ∨ f.RaisesContained → f.RaisesFaults := fun f h =>
      h.elim Function.IsStandard.raisesFaults Function.RaisesContained.raisesFaults
    exact ⟨fun op f hf => hraises f (hoperators.unary op f hf),
      fun op f hf => hraises f (hoperators.binary op f hf)⟩
  functions := by
    intro name f hf
    obtain h | h := hfunctions name f hf
    · exact h.placeless
    · exact h.raisesFaults.placeless

namespace Session

open Evaluation

variable {depth : Nat} {w w' : World} {x : Expr} {err : Error}

/-- A node that breaks gives an error at its place, with the text of the evaluation. -/
theorem located_of_breaks {e : Engine} (hq : e.scope.Quiet) (hplaceless : e.scope.Placeless)
    (hw : w.engine = e) (h : Breaks (host (invoke depth)) x w (.error err) w') :
    err.position = some x.position ∧ err.expression = e.scope.source := by
  have hscope : ∀ w : World, w.engine = e → (host (invoke depth)).scope w = e.scope := by
    intro w hw
    show w.engine.scope = e.scope
    rw [hw]
  have hoperator : ∀ {op position source f}, operatorFailure op position source f = .error err →
      (∃ fault, f = .fault fault) → err.position = some position ∧ err.expression = source := by
    rintro op position source _ herr ⟨fault, rfl⟩
    exact operatorFailure_located herr
  generalize hf : Failure.error err = f at h
  cases h with
  | constant | var | unaryUnknown | binaryUnknown | callUnknown | unknown =>
    rw [nodeError, hscope w hw] at hf
    rw [Failure.error.inj hf]
    exact ⟨rfl, rfl⟩
  | @unary op y position _ w₁ _ callee v e' hfind hy hcall =>
    rw [hscope w hw] at hfind
    have hw₁ := engine_of_eval hq hw hy
    obtain ⟨happly, -, hw'⟩ := of_call_eq_error (hq callee (Or.inl ⟨op, hfind⟩)) hcall
    rw [hscope w' (hw'.trans hw₁)] at hf
    exact hoperator hf.symm (hplaceless.operators.unary op callee hfind _ _ happly)
  | @binary op l r position _ w₁ w₂ _ callee a b e' hfind hl hr hcall =>
    rw [hscope w hw] at hfind
    have hw₁ := engine_of_eval hq hw hl
    have hw₂ := engine_of_eval hq hw₁ hr
    obtain ⟨happly, -, hw'⟩ := of_call_eq_error (hq callee (Or.inr (Or.inl ⟨op, hfind⟩))) hcall
    rw [hscope w' (hw'.trans hw₂)] at hf
    exact hoperator hf.symm (hplaceless.operators.binary op callee hfind _ _ happly)
  | @call name args position _ w₁ _ callee vs e' hfind hargs hcall =>
    rw [hscope w hw] at hfind
    have hw₁ := engine_of_evalAll hq hw hargs
    obtain ⟨happly, -, -⟩ := of_call_eq_error (hq callee (Or.inr (Or.inr ⟨name, hfind⟩))) hcall
    rw [hscope w₁ hw₁] at hf
    exact callFailure_located (hplaceless.function hfind _ _ happly) hf.symm

end Session

/-! ## Tokens -/

/-- A token that stands in a text: its text is found at its position. -/
def Token.StandsIn (t : Token) (text : String) : Prop :=
  ∃ before after, text.toList = before ++ (t.text.toList ++ after)
    ∧ t.position = (before.length : Nat)

/-- The position of an error that lies in a text. -/
def Error.LiesIn (err : Error) (text : String) : Prop :=
  ∃ n : Nat, err.position = some (n : Int) ∧ n ≤ text.toList.length

/-- The tokens that cover a text stand in it. -/
theorem Token.Cover.standsIn {ops : List String} {text : String} {ts : List Token}
    (h : Cover ops 0 text.toList ts) {t : Token} (ht : t ∈ ts) : t.StandsIn text := by
  obtain ⟨n, hposition, hne, hslice, -⟩ := h.takes t ht
  have hn : n ≤ text.toList.length := by
    refine Nat.le_of_not_lt fun hlong => ?_
    rw [List.drop_eq_nil_of_le (by omega), List.take_nil] at hslice
    exact hne (String.toList_eq_nil_iff.1 hslice.symm)
  have hrest := List.take_append_drop t.text.toList.length (text.toList.drop n)
  rw [hslice] at hrest
  refine ⟨text.toList.take n, (text.toList.drop n).drop t.text.toList.length, ?_, ?_⟩
  · rw [hrest, List.take_append_drop]
  · rw [hposition, List.length_take, Nat.min_eq_left hn, Nat.zero_add]

theorem Token.StandsIn.liesIn {t : Token} {text : String} (h : t.StandsIn text) {err : Error}
    (herr : err.position = some t.position) : err.LiesIn text := by
  obtain ⟨before, after, htext, hposition⟩ := h
  refine ⟨before.length, ?_, ?_⟩
  · rw [herr, hposition]
  · rw [htext, List.length_append]
    omega

namespace Engine

variable {e : Engine} {text : String} {err : Error}

theorem cover_of_freshTokens (htrie : e.trie = .ofList e.tables.operators) {ts : List Token}
    (h : e.freshTokens text = .ok ts) : Token.Cover e.tables.operators 0 text.toList ts := by
  unfold freshTokens at h
  rw [htrie] at h
  exact Token.cover_of_ofText h

/-- The nodes of a text's tree come from tokens that stand in the text. -/
theorem token_of_node (htrie : e.trie = .ofList e.tables.operators) {ts : List Token}
    {tree node : Expr} (htokens : e.freshTokens text = .ok ts)
    (hparse : e.freshParse ts (some text) = .ok tree) (hnode : node ∈ tree.nodes) :
    ∃ t ∈ ts, node.token? = some t ∧ t.StandsIn text := by
  obtain ⟨phrase, hphrase, rfl, rfl⟩ := Parser.of_parse_eq_ok hparse
  obtain ⟨t, ht, htoken⟩ := phrase.exists_token hphrase.grammatical node hnode
  exact ⟨t, ht, htoken, (cover_of_freshTokens htrie htokens).standsIn ht⟩

/-- What is wrong with the letters of a text is in the text. -/
theorem located_of_freshTokens (h : e.freshTokens text = .error (.error err)) :
    err.problem.stage = .limit
      ∨ err.problem.stage = .lexical ∧ err.expression = some text ∧ err.LiesIn text := by
  obtain herr | ⟨first, others, herr, hinOrder⟩ := Token.of_ofText_eq_error h
  · rw [Failure.error.inj herr]
    exact Or.inl rfl
  · rw [Failure.error.inj herr]
    obtain ⟨hlow, hhigh⟩ := hinOrder.bounded first (List.mem_cons_self ..)
    obtain ⟨n, hn⟩ := Int.eq_ofNat_of_zero_le (show (0 : Int) ≤ first.position from hlow)
    refine Or.inr ⟨rfl, rfl, n, congrArg some hn, ?_⟩
    rw [hn] at hhigh
    exact Int.ofNat_le.1 hhigh

/-- So is what is wrong with its tokens. -/
theorem located_of_freshParse (htrie : e.trie = .ofList e.tables.operators) {ts : List Token}
    (htokens : e.freshTokens text = .ok ts)
    (h : e.freshParse ts (some text) = .error (.error err)) :
    err.problem.stage = .limit
      ∨ err.problem.stage = .grammar ∧ err.expression = some text ∧ err.LiesIn text := by
  obtain hlimit | ⟨fault, herr⟩ | ⟨problem, position, herr, hplace⟩ :=
    Parser.of_parse_eq_error_placed h
  · exact Or.inl hlimit
  · exact absurd herr (by simp)
  · rw [Failure.error.inj herr]
    refine Or.inr ⟨rfl, rfl, ?_⟩
    obtain rfl | ⟨t, ht, rfl⟩ := hplace
    · exact ⟨text.toList.length, rfl, Nat.le_refl _⟩
    · exact ((cover_of_freshTokens htrie htokens).standsIn ht).liesIn rfl

/-- An error of a text that has no tree is in the text, and it is none of an evaluation. -/
theorem located_of_freshTree (htrie : e.trie = .ofList e.tables.operators)
    (h : e.freshTree text = .error (.error err)) (hlimit : err.problem.stage ≠ .limit) :
    err.problem.stage ≠ .evaluation ∧ err.expression = some text ∧ err.LiesIn text := by
  obtain htokens | ⟨ts, htokens, hparse⟩ := of_freshTree_eq_error h
  · obtain ⟨hstage, hlocated⟩ := (located_of_freshTokens htokens).resolve_left hlimit
    rw [hstage]
    exact ⟨by decide, hlocated⟩
  · obtain ⟨hstage, hlocated⟩ := (located_of_freshParse htrie htokens hparse).resolve_left hlimit
    rw [hstage]
    exact ⟨by decide, hlocated⟩

variable {limits : Limits} {caching : Bool} {cacheSize operators : Datum}
  {levels : Precedence.Source} {bindings : List (String × Value)}
  {operatorFunctions : OperatorSource} {functions : List (String × Function)} {c : Change}

/-- Take any engine that is made and used, whatever it remembers, whose functions perform no steps,
whose operators are standard ones or raise contained faults only, and whose functions are built in
or raise contained faults only. An error of the letters, the grammar or the evaluation that solving
a text comes to shows the text, and its position lies in the text. If it is one of the evaluation,
then the evaluation of the text's tree has come to a node that breaks with this error, and its
position is that of the token that the node comes from, which stands in the text. -/
theorem solve_located
    (hc : create limits caching cacheSize operators levels bindings operatorFunctions functions
      = .ok c) (ss : List Step) {e : Engine} (he : e = (c.engine.steps ss).2)
    (hquiet : e.tables.Every Function.Quiet)
    (hoperators : e.tables.operatorFunctions.Every fun f => f.IsStandard ∨ f.RaisesContained)
    (hfunctions : Table.Every (fun f => f.IsBuiltin ∨ f.RaisesContained) e.tables.functions)
    {text : String} {err : Error}
    (hr : (e.step (.solve (.str text))).1.result = .error (.error err))
    (hstage : err.problem.stage = .lexical ∨ err.problem.stage = .grammar
      ∨ err.problem.stage = .evaluation) :
    err.expression = some text ∧ err.LiesIn text
      ∧ (err.problem.stage = .evaluation → ∃ (ts : List Token) (tree node : Expr) (t : Token)
          (w w₁ w₂ : World), e.freshTokens text = .ok ts ∧ e.freshTree text = .ok tree
        ∧ w.engine.SameSettings e
        ∧ w.engine.scope = ⟨e.tables.bindings, e.tables.operatorFunctions, e.tables.functions,
            some text⟩
        ∧ Evaluation.Reaches (Session.host (Session.invoke Session.maxNesting)) tree w node w₁
        ∧ Evaluation.Breaks (Session.host (Session.invoke Session.maxNesting)) node w₁
            (.error err) w₂
        ∧ t ∈ ts ∧ node.token? = some t ∧ err.position = some t.position ∧ t.StandsIn text) := by
  have hrooted := invariant_rooted.steps (rooted_create hc) (rooted_create hc) ss
  have htrie := invariant_trie.steps (rooted_create hc) (trie_create hc) ss
  rw [← he] at hrooted htrie
  have hlimit : err.problem.stage ≠ .limit := by
    intro hlimit
    rw [hlimit] at hstage
    exact absurd hstage (by decide)
  obtain htree | ⟨tree, w, w₂, htree, hbuilt, heval, -⟩ := solve_error_cases hrooted hr
  · obtain ⟨hstage, hexpression, hlies⟩ := located_of_freshTree htrie htree hlimit
    exact ⟨hexpression, hlies, fun hevaluation => absurd hevaluation hstage⟩
  have hsame := hbuilt.same
  obtain ⟨ts, htokens, hparse⟩ := exists_of_bind_eq_ok htree
  obtain ⟨node, w₁, hreach, hbreak⟩ := Evaluation.eval_eq_error_iff_breaks.1 heval
  obtain ⟨t, ht, htoken, hstands⟩ := token_of_node htrie htokens hparse hreach.mem_nodes
  have hscope : (w.engine.beginEvaluation (some text)).scope = ⟨e.tables.bindings,
      e.tables.operatorFunctions, e.tables.functions, some text⟩ := by
    rw [← hsame.tables]
    rfl
  have hq : (w.engine.beginEvaluation (some text)).scope.Quiet := by
    rw [hscope]
    exact fun _ hf => hquiet.scope Function.quiet_native (some text) hf
  have hplaceless : (w.engine.beginEvaluation (some text)).scope.Placeless := by
    rw [hscope]
    exact Scope.placeless_of_raises hoperators hfunctions
  have hengine := Session.engine_reaches hq rfl hreach
  obtain ⟨hposition, hexpression⟩ := Session.located_of_breaks hq hplaceless hengine hbreak
  rw [hscope] at hexpression
  rw [Expr.position_of_token htoken] at hposition
  refine ⟨hexpression, hstands.liesIn hposition, fun _ => ?_⟩
  exact ⟨ts, tree, node, t, { w with engine := w.engine.beginEvaluation (some text) }, w₁, w₂,
    htokens, htree, ⟨hsame.limits, hsame.tables, hsame.trie⟩, hscope, hreach, hbreak, ht, htoken,
    hposition, hstands⟩

/-- A division by zero that fails again, its tokens and its tree being remembered. -/
theorem solve_located_division :
    ∃ c e err ts node t, create {} true (.int 4) .none .standard [("x", .int 0)] (.datum .none) []
        = .ok c
      ∧ e = (c.engine.steps [.solve (.str "1 / x")]).2
      ∧ (e.step (.solve (.str "1 / x"))).1.result = .error (.error err)
      ∧ err.problem.stage = .evaluation ∧ err.expression = some "1 / x"
      ∧ e.freshTokens "1 / x" = .ok ts ∧ t ∈ ts ∧ Expr.token? node = some t
      ∧ err.position = some t.position ∧ t.StandsIn "1 / x" := by
  obtain ⟨c, hc⟩ : ∃ c, create {} true (.int 4) .none .standard [("x", .int 0)] (.datum .none) []
      = .ok c := ⟨_, rfl⟩
  obtain ⟨e, he⟩ : ∃ e, e = (c.engine.steps [.solve (.str "1 / x")]).2 := ⟨_, rfl⟩
  have hengine := (Except.ok.inj hc).symm
  have hdefault : OperatorSource.Every Function.Quiet (.datum .none) := trivial
  have hsound := sound_create hc hdefault (List.forall_mem_nil _)
  have htables : e.tables = c.engine.tables := by
    rw [he]
    exact (alters_step (rooted_create hc) hsound.quiet (.solve (.str "1 / x"))).eq_of_solve
  have hquiet : e.tables.Every Function.Quiet := by
    rw [htables]
    exact hsound.quiet
  have hoperators : e.tables.operatorFunctions.Every fun f => f.IsStandard ∨ f.RaisesContained := by
    rw [htables, hengine]
    exact ⟨fun op f hf => Or.inl (Or.inl ⟨op, hf⟩), fun op f hf => Or.inl (Or.inr ⟨op, hf⟩)⟩
  have hfunctions : Table.Every (fun f => f.IsBuiltin ∨ f.RaisesContained) e.tables.functions := by
    rw [htables, hengine]
    exact Table.every_nil
  have hfailed : (e.step (.solve (.str "1 / x"))).1.error?.map (·.problem.stage)
      = some .evaluation := by
    rw [he, hengine]
    decide +kernel
  obtain ⟨err, herr, hstage⟩ := Option.map_eq_some_iff.1 hfailed
  have hr := Report.result_of_error? herr
  obtain ⟨hexpression, -, hevaluation⟩ := solve_located hc _ he hquiet hoperators hfunctions hr
    (Or.inr (Or.inr hstage))
  obtain ⟨ts, tree, node, t, w, w₁, w₂, htokens, -, -, -, -, -, ht, htoken, hposition, hstands⟩ :=
    hevaluation hstage
  exact ⟨c, e, err, ts, node, t, hc, he, hr, hstage, hexpression, htokens, ht, htoken, hposition,
    hstands⟩

end Engine

end Reckon
