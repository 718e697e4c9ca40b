import Reckon.Proofs.Engine.Locality
import Reckon.Proofs.Value.Literals
/-
  Where an error at a literal comes from. The literals of a text's tree are constants among its
  tokens, so they are literals, and no longer than the text. Where texts are limited to as many
  characters as a number in base ten may have digits, each of them has its value
  (`Engine.Literate.not_illegible`), and an evaluation of the tree does not fail at a literal.

  An evaluation that fails like that all the same passes on what a call came to. So the error is
  traced from call to call, by induction on how deep they are nested
  (`Session.attributed_invoke`), to its origin: a function that came to it by itself, or one that
  evaluates a tree of its own with a literal that cannot be read (`Invocation.Originates`). This
  holds whatever functions are in force, and whatever they do to the engine in the middle of an
  evaluation.
-/
namespace Reckon

open Lexeme

/-! ## Failures that are passed on -/

namespace Evaluation

variable {source : Option String} {e : Failure} {err : Error}

/-- An error behind an operator that is none of a failed operator is what the call came to. -/
theorem eq_of_operatorFailure {op : String} {position : Int}
    (h : operatorFailure op position source e = .error err)
    (hproblem : ∀ op reason, err.problem ≠ .operatorFailed op reason) : e = .error err := by
  cases e with
  | error => exact h
  | fault f =>
    by_cases hc : f.kind.isContained = true
    · have herr := Failure.error.inj ((if_pos hc).symm.trans h)
      rw [← herr] at hproblem
      exact absurd rfl (hproblem _ _)
    · exact absurd ((if_neg hc).symm.trans h) (by simp)

/-- So is an error behind a function that is no rejection. -/
theorem eq_of_callFailure {name : String} {position : Option Int}
    (h : callFailure name position source e = .error err)
    (hproblem : ∀ name reason, err.problem ≠ .rejected name reason) : e = .error err := by
  cases e with
  | fault f =>
    by_cases hc : f.kind.isContained = true
    · have herr := Failure.error.inj ((if_pos hc).symm.trans h)
      rw [← herr] at hproblem
      exact absurd rfl (hproblem _ _)
    · exact absurd ((if_neg hc).symm.trans h) (by simp)
  | error e =>
    obtain ⟨problem, place, expression, cause⟩ := e
    cases problem with
    | rejected name' reason =>
      cases place with
      | none =>
        rw [← Failure.error.inj h] at hproblem
        exact absurd rfl (hproblem _ _)
      | some _ => exact h
    | _ => exact h

end Evaluation

/-! ## Trees that can be read -/

/-- A tree with a literal of this text, which cannot be read. -/
def Expr.Illegible (x : Expr) (literal : String) : Prop :=
  ∃ position fault, .constant literal position ∈ x.nodes ∧ Literal.value literal = .error fault

namespace Engine

/-- An engine that scans with the operators in force, remembers of texts what they are, and admits
no text that is longer than a number in base ten may be. -/
structure Literate (e : Engine) : Prop where
  rooted : e.Rooted
  trie : e.trie = .ofList e.tables.operators
  limit : e.limits.expressionLength ≤ Reading.maxDigits

theorem invariant_literate : Invariant Literate where
  move := by
    intro w w' hmove h
    have hlimits := (invariant_limits w.engine.limits).move hmove rfl
    refine ⟨invariant_rooted.move hmove h.rooted, invariant_trie.move hmove h.trie, ?_⟩
    rw [hlimits]
    exact h.limit
  rest h := ⟨invariant_rooted.rest h.rooted, h.trie, h.limit⟩

variable {e : Engine} {text : String} {err : Error}

/-- The literals of a text's tree have values. -/
theorem Literate.not_illegible (h : e.Literate) {tree : Expr} (htree : e.freshTree text = .ok tree)
    (literal : String) : ¬ tree.Illegible literal := by
  rintro ⟨position, fault, hnode, hvalue⟩
  obtain ⟨ts, htokens, hparse⟩ := exists_of_bind_eq_ok htree
  obtain ⟨t, ht, htoken, before, after, htext, -⟩ := token_of_node h.trie htokens hparse hnode
  obtain rfl := Option.some.inj htoken
  obtain ⟨n, -, -, -, htakes⟩ := (cover_of_freshTokens h.trie htokens).takes _ ht
  have hliteral : IsLiteral literal.toList := htakes.holds
  have hshort : literal.toList.length ≤ text.toList.length := by
    simp only [htext, List.length_append]
    omega
  have hlong : ¬ e.limits.expressionLength < text.toList.length := by
    intro hlong
    exact absurd ((Token.ofText_eq_error_of_long hlong).symm.trans htokens) (by simp)
  have hlimit := h.limit
  obtain ⟨v, hv⟩ := Literal.isLiteral_iff_exists_denotes.1 hliteral
  have hread := Literal.value_of_denotes hv fun _ => by omega
  exact absurd (hread.symm.trans hvalue) (by simp)

/-! Before the evaluation there are errors of other stages. -/

theorem stage_ne_of_freshTokens (h : e.freshTokens text = .error (.error err)) :
    err.problem.stage ≠ .evaluation := by
  obtain ⟨err', herr, hstage⟩ := stage_of_freshTokens h
  rw [Failure.error.inj herr]
  rcases hstage with hstage | hstage
  · rw [hstage]
    decide
  · rw [hstage]
    decide

theorem stage_ne_of_freshParse {ts : List Token} {source : Option String}
    (h : e.freshParse ts source = .error (.error err)) : err.problem.stage ≠ .evaluation := by
  obtain hlimit | ⟨fault, hfault⟩ | ⟨problem, position, herr, -⟩ :=
    Parser.of_parse_eq_error_placed h
  · have hstage : err.problem.stage = .limit := hlimit
    rw [hstage]
    decide
  · exact absurd hfault (by simp)
  · rw [Failure.error.inj herr]
    exact (by decide : Problem.Stage.grammar ≠ .evaluation)

theorem stage_ne_of_freshTree (h : e.freshTree text = .error (.error err)) :
    err.problem.stage ≠ .evaluation := by
  obtain htokens | ⟨ts, -, hparse⟩ := of_freshTree_eq_error h
  · exact stage_ne_of_freshTokens htokens
  · exact stage_ne_of_freshParse hparse

end Engine

/-! ## Origins -/

/-- A call is the origin of an error at a literal: the function came to it by itself, or it
evaluates a tree with that literal. -/
def Invocation.Originates (i : Invocation) (err : Error) (literal : String) : Prop :=
  i.callee.apply i.args = .error (.error err)
    ∨ ∃ steps expr source, i.callee = .script steps ∧ .evaluate expr source ∈ steps
        ∧ expr.Illegible literal

/-- Among the calls that were made there is an origin of the error. -/
def World.HasOrigin (err : Error) (literal : String) (w : World) : Prop :=
  ∃ i, .called i ∈ w.events ∧ i.Originates err literal

namespace Session

open Evaluation

variable {α β : Type} {P P' : Prop} {inner : Function → List Value → Run Value} {err : Error}
  {literal : String} {w w' : World}

theorem literate_of_walks {m : Run α} (hm : Walks m) (h : w.engine.Literate) :
    (left (m w)).engine.Literate :=
  (hm w h.rooted).keeps (P := fun w => w.engine.Literate) Engine.invariant_literate.move h

/-- A node that breaks at a literal is that literal, or the call of a function in scope came to
this. -/
theorem of_breaks_invalidLiteral (hinner : ∀ f args, Walks (inner f args)) {x : Expr}
    (hw : w.engine.Literate) (h : Breaks (host inner) x w (.error err) w')
    (hproblem : err.problem = .invalidLiteral literal) :
    (∃ position fault, x = .constant literal position ∧ Literal.value literal = .error fault)
      ∨ ∃ f args w₁, w.engine.scope.Has f ∧ w₁.engine.Literate
          ∧ (host inner).call f args w₁ = .error (.error err) w' := by
  have hkeeps : ∀ x (w : World), w.engine.Literate →
      (left (eval (host inner) x w)).engine.Literate :=
    fun x w hw => literate_of_walks (walks_eval hinner x) hw
  obtain ⟨f, hf⟩ : ∃ f, f = Failure.error err := ⟨_, rfl⟩
  rw [← hf] at h
  cases h with
  | constant hvalue =>
    rw [← Failure.error.inj hf] at hproblem
    obtain rfl := Problem.invalidLiteral.inj hproblem
    exact Or.inl ⟨_, _, rfl, hvalue⟩
  | var | unaryUnknown | binaryUnknown | callUnknown | unknown =>
    rw [← Failure.error.inj hf] at hproblem
    exact absurd hproblem (by simp)
  | @unary op _ _ _ _ _ _ _ _ hfind hx hcall =>
    rw [eq_of_operatorFailure hf (by simp [hproblem])] at hcall
    exact Or.inr ⟨_, _, _, Or.inl ⟨op, hfind⟩, of_eq_ok
      (P := fun w : World => w.engine.Literate) (hkeeps _ _ hw) hx, hcall⟩
  | @binary op _ _ _ _ _ _ _ _ _ _ _ hfind hl hr hcall =>
    rw [eq_of_operatorFailure hf (by simp [hproblem])] at hcall
    have hleft := of_eq_ok (P := fun w : World => w.engine.Literate) (hkeeps _ _ hw) hl
    exact Or.inr ⟨_, _, _, Or.inr (Or.inl ⟨op, hfind⟩), of_eq_ok
      (P := fun w : World => w.engine.Literate) (hkeeps _ _ hleft) hr, hcall⟩
  | @call name args _ _ _ _ _ _ _ hfind hargs hcall =>
    rw [eq_of_callFailure hf (by simp [hproblem])] at hcall
    exact Or.inr ⟨_, _, _, Or.inr (Or.inr ⟨name, hfind⟩), of_eq_ok
      (P := fun w : World => w.engine.Literate) (evalAll_keeps_of_eval hkeeps args hw) hargs, hcall⟩

/-- An evaluation that fails at a literal has a tree with this literal, or the call of a function in
scope came to this. -/
theorem of_eval_invalidLiteral (hinner : ∀ f args, Walks (inner f args)) {x : Expr}
    (hw : w.engine.Literate) (hrun : eval (host inner) x w = .error (.error err) w')
    (hproblem : err.problem = .invalidLiteral literal) :
    x.Illegible literal
      ∨ ∃ node w₁ w₂ f args, Reaches (host inner) x w node w₁ ∧ w₁.engine.scope.Has f
          ∧ w₂.engine.Literate ∧ (host inner).call f args w₂ = .error (.error err) w' := by
  obtain ⟨node, w₁, hreach, hbreak⟩ := eval_eq_error_iff_breaks.1 hrun
  have hnode := hreach.keeps (P := fun w : World => w.engine.Literate)
    (fun x w hw => literate_of_walks (walks_eval hinner x) hw) hw
  obtain ⟨position, fault, rfl, hvalue⟩ | ⟨f, args, w₂, hf, hw₂, hcall⟩ :=
    of_breaks_invalidLiteral hinner hnode hbreak hproblem
  · exact Or.inl ⟨position, fault, hreach.mem_nodes, hvalue⟩
  · exact Or.inr ⟨node, w₁, w₂, f, args, hreach, hf, hw₂, hcall⟩

/-! ### Computations -/

/-- A computation that comes to the error only if there is an origin of it among the calls that were
made, or `P` holds. -/
structure Attributed (err : Error) (literal : String) (P : Prop) (m : Run α) : Prop where
  walks : Walks m
  origin : ∀ {w w'}, w.engine.Literate → m w = .error (.error err) w' → w'.HasOrigin err literal ∨ P

theorem Attributed.mono {m : Run α} (h : Attributed err literal P m) (hP : P → P') :
    Attributed err literal P' m := ⟨h.walks, fun hw hrun => (h.origin hw hrun).imp id hP⟩

/-- A computation that does not come to the error needs no origin. -/
theorem attributed_of_ne {m : Run α} (hwalks : Walks m)
    (h : ∀ {w w'}, w.engine.Literate → m w ≠ .error (.error err) w') : Attributed err literal P m :=
  ⟨hwalks, fun hw hrun => absurd hrun (h hw)⟩

/-- Bare faults are no such errors. -/
theorem attributed_of_fault {m : Run α} (hwalks : Walks m)
    (h : ∀ w, (∃ a w', m w = .ok a w') ∨ ∃ f w', m w = .error (.fault f) w') :
    Attributed err literal P m := by
  refine attributed_of_ne hwalks fun {w w'} _ hrun => ?_
  obtain ⟨a, w₁, hok⟩ | ⟨f, w₁, hfault⟩ := h w
  · exact absurd (hok.symm.trans hrun) (by simp)
  · exact absurd (hfault.symm.trans hrun) (by simp)

theorem attributed_pure (a : α) : Attributed err literal P (pure a) :=
  attributed_of_fault (walks_pure a) fun w => Or.inl ⟨a, w, rfl⟩

theorem attributed_fault (f : Fault) : Attributed err literal P (fault f : Run α) :=
  attributed_of_fault (walks_fault f) fun w => Or.inr ⟨f, w, rfl⟩

theorem Attributed.bind {m : Run α} {k : α → Run β} (hm : Attributed err literal P m)
    (hk : ∀ a, Attributed err literal P (k a)) : Attributed err literal P (m >>= k) where
  walks := hm.walks.bind fun a => (hk a).walks
  origin := by
    intro w w' hw hrun
    obtain hfailed | ⟨a, w₁, hok, hrest⟩ := exists_of_run_eq_error hrun
    · exact hm.origin hw hfailed
    · have hw₁ := of_eq_ok (P := fun w : World => w.engine.Literate)
        (literate_of_walks hm.walks hw) hok
      exact (hk a).origin hw₁ hrest

theorem Refused.attributed {m : Run α} (h : Refused m) : Attributed err literal P m :=
  attributed_of_fault h.stuck.walks fun w => (h w).elim fun f hfault => Or.inr ⟨f, w, hfault⟩

/-- What is found out about a text fails in other stages. -/
theorem attributed_of_lands (hproblem : err.problem = .invalidLiteral literal) {m : Run α}
    {r : Engine → Except Failure α}
    (h : ∀ w, w.engine.Rooted → Lands Engine.Built m w (r w.engine))
    (hstage : ∀ e, r e = .error (.error err) → err.problem.stage ≠ .evaluation) :
    Attributed err literal P m := by
  refine attributed_of_ne (walks_of_lands h) fun {w w'} hw hrun => ?_
  obtain ⟨w₁, -, -, hlands⟩ := h w hw.rooted
  refine hstage w.engine (eq_of_outcome_eq_error (hlands.symm.trans hrun)) ?_
  rw [hproblem]
  rfl

theorem attributed_tokenize (hproblem : err.problem = .invalidLiteral literal) (d : Datum) :
    Attributed err literal P (tokenize d) := by
  obtain ⟨text, rfl⟩ | hd := text_or_stuck d
  · exact attributed_of_lands (r := fun e => e.freshTokens text) hproblem
      (fun _ h => tokenize_lands h text) fun _ h => Engine.stage_ne_of_freshTokens h
  · exact (refused_tokenize hd).attributed

theorem attributed_parse (hproblem : err.problem = .invalidLiteral literal) (ts : List Token)
    (source : Option String) : Attributed err literal P (parse ts source) :=
  attributed_of_lands (r := fun e => e.freshParse ts source) hproblem
    (fun _ h => parse_lands h ts source) fun _ h => Engine.stage_ne_of_freshParse h

/-! ### Evaluations -/

variable (hinner : ∀ f args,
  Attributed err literal (Invocation.Originates ⟨f, args⟩ err literal) (inner f args))

include hinner in
/-- A call is noted before it is carried out. So if it is the origin of the error, it is among the
calls that were made. -/
theorem attributed_call (f : Function) (args : List Value) :
    Attributed err literal False ((host inner).call f args) := by
  refine ⟨walks_call (fun f args => (hinner f args).walks) f args, fun {w w'} hw hrun => ?_⟩
  have hcarried : inner f args { w with events := w.events ++ [.called ⟨f, args⟩] }
      = .error (.error err) w' := hrun
  have hpath := (hinner f args).walks { w with events := w.events ++ [.called ⟨f, args⟩] } hw.rooted
  rw [hcarried] at hpath
  have hcalled : .called ⟨f, args⟩ ∈ w'.events :=
    hpath.events.subset (List.mem_append_right _ (List.mem_singleton_self _))
  have hbegun : ({ w with events := w.events ++ [.called ⟨f, args⟩] } : World).engine.Literate := hw
  obtain hfound | horigin := (hinner f args).origin hbegun hcarried
  · exact Or.inl hfound
  · exact Or.inl ⟨_, hcalled, horigin⟩

include hinner in
theorem attributed_eval (hproblem : err.problem = .invalidLiteral literal) (x : Expr) :
    Attributed err literal (x.Illegible literal) (eval (host inner) x) := by
  have hwalks : ∀ f args, Walks (inner f args) := fun f args => (hinner f args).walks
  refine ⟨walks_eval hwalks x, fun {w w'} hw hrun => ?_⟩
  obtain hillegible | ⟨node, w₁, w₂, f, args, -, -, hw₂, hcall⟩ :=
    of_eval_invalidLiteral hwalks hw hrun hproblem
  · exact Or.inr hillegible
  · exact Or.inl (((attributed_call hinner f args).origin hw₂ hcall).resolve_right id)

include hinner in
theorem attributed_evaluate (hproblem : err.problem = .invalidLiteral literal) (x : Expr)
    (source : Option String) :
    Attributed err literal (x.Illegible literal) (evaluate inner x source) := by
  refine ⟨walks_evaluate (fun f args => (hinner f args).walks) x source, fun {w w'} hw hrun => ?_⟩
  have hbegun : (w.engine.beginEvaluation source).Literate :=
    Engine.invariant_literate.move (.begin w source) hw
  exact (attributed_eval hinner hproblem x).origin
    (w := { w with engine := w.engine.beginEvaluation source }) hbegun
    (eval_of_evaluate_eq_error hrun)

include hinner in
/-- The tree of a text has no literal that cannot be read. -/
theorem attributed_solve (hproblem : err.problem = .invalidLiteral literal) (d : Datum) :
    Attributed err literal False (solve inner d) := by
  obtain ⟨text, rfl⟩ | hd := text_or_stuck d
  · refine ⟨walks_solve (fun f args => (hinner f args).walks) _, fun {w w'} hw hrun => ?_⟩
    have htree : Attributed err literal False (tree (.str text)) :=
      attributed_of_lands (r := fun e => e.freshTree text) hproblem (fun _ h => tree_lands h text)
        fun _ h => Engine.stage_ne_of_freshTree h
    obtain hfailed | ⟨x, w₁, hok, hevaluate⟩ := exists_of_run_eq_error hrun
    · exact htree.origin hw hfailed
    · obtain ⟨w₂, -, -, hlands⟩ := tree_lands hw.rooted text
      have hfresh := eq_of_outcome_eq_ok (hlands.symm.trans hok)
      have hw₁ := of_eq_ok (P := fun w : World => w.engine.Literate)
        (literate_of_walks htree.walks hw) hok
      exact ((attributed_evaluate hinner hproblem x _).origin hw₁ hevaluate).imp id
        (hw.not_illegible hfresh literal)
  · exact ((refused_tree hd).bind _).attributed

/-! ### Steps -/

theorem attributed_revise {s : Step} {a : Aim} (ha : s.aim? = some a) :
    Attributed err literal P (perform inner s) := by
  refine attributed_of_fault (walks_revise ha) fun w => ?_
  have hmakes := makes_revise inner ha w
  cases hr : s.revise w.engine.tables with
  | ok t =>
    rw [hr] at hmakes
    obtain ⟨w₁, hok, -⟩ := hmakes
    exact Or.inl ⟨_, w₁, hok⟩
  | error f =>
    rw [hr] at hmakes
    exact Or.inr ⟨f, w, hmakes⟩

theorem attributed_addOperator (operator : Datum) (binary : Option Function) (binaryLevel : Datum)
    (unary : Option Function) (unaryLevel : Datum) (isRight : Bool) :
    Attributed err literal P
      (addOperator operator binary binaryLevel unary unaryLevel isRight) := by
  refine attributed_of_fault
    (walks_addOperator operator binary binaryLevel unary unaryLevel isRight) fun w => ?_
  cases haccept : accept operator binary binaryLevel unary unaryLevel with
  | error f => exact Or.inr ⟨_, _, addOperator_refused haccept isRight w⟩
  | ok name =>
    cases ho : w.engine.tables.operatorFunctions.extend name binary unary with
    | error f =>
      obtain ⟨events, -, hfault⟩ := addOperator_announced haccept isRight ho
      exact Or.inr ⟨_, _, hfault⟩
    | ok o =>
      obtain ⟨events, -, hok⟩ := addOperator_added haccept isRight ho
      exact Or.inl ⟨_, _, hok⟩

include hinner in
/-- A step that comes to the error evaluates a tree with the literal, if no call is the origin. -/
theorem attributed_perform (hproblem : err.problem = .invalidLiteral literal) (s : Step) :
    Attributed err literal (∃ x source, s = .evaluate x source ∧ x.Illegible literal)
      (perform inner s) := by
  cases ha : s.aim? with
  | some a => exact attributed_revise ha
  | none =>
    match s with
    | .solve d =>
      exact ((attributed_solve hinner hproblem d).mono False.elim).bind fun _ => attributed_pure _
    | .tokenize d => exact (attributed_tokenize hproblem d).bind fun _ => attributed_pure _
    | .parse none _ => exact attributed_fault _
    | .parse (some ts) source =>
      exact (attributed_parse hproblem ts source).bind fun _ => attributed_pure _
    | .parseText d source =>
      exact (attributed_tokenize hproblem d).bind fun ts =>
        (attributed_parse hproblem ts source).bind fun _ => attributed_pure _
    | .evaluate x source =>
      exact ((attributed_evaluate hinner hproblem x source).mono fun h => ⟨x, source, rfl, h⟩).bind
        fun _ => attributed_pure _
    | .addOperator .. => exact (attributed_addOperator ..).bind fun _ => attributed_pure _
    | .clearCaches =>
      exact attributed_of_fault (walks_perform (fun f args => (hinner f args).walks) _)
        fun w => Or.inl ⟨.nothing, { w with engine := w.engine.clearCaches }, rfl⟩
    | .snapshot =>
      exact attributed_of_fault (walks_perform (fun f args => (hinner f args).walks) _)
        fun w => Or.inl ⟨.snapshot ⟨w.engine.tables, w.engine.limits⟩, w, rfl⟩
    | .invalid cause => exact attributed_fault cause

theorem attributed_performAll {run : Step → Run Answer} {ss : List Step}
    (hrun : ∀ s ∈ ss, Attributed err literal P (run s)) (last : Answer) :
    Attributed err literal P (performAll run ss last) := by
  induction ss generalizing last with
  | nil => exact attributed_pure last
  | cons s ss ih =>
    refine (hrun s (List.mem_cons_self ..)).bind fun answer => ih ?_ answer
    exact fun x hx => hrun x (List.mem_cons_of_mem _ hx)

theorem attributed_invoke_quiet {f : Function} (hf : f.Quiet) (depth : Nat) (args : List Value) :
    Attributed err literal (Invocation.Originates ⟨f, args⟩ err literal)
      (invoke depth f args) := by
  refine ⟨walks_invoke_quiet hf depth args, fun {w w'} _ hrun => ?_⟩
  rw [invoke_quiet hf] at hrun
  exact Or.inr (Or.inl (eq_of_outcome_eq_error hrun))

/-- A call that comes to the error is its origin, or another one that was made is. -/
theorem attributed_invoke (hproblem : err.problem = .invalidLiteral literal) (depth : Nat)
    (f : Function) (args : List Value) :
    Attributed err literal (Invocation.Originates ⟨f, args⟩ err literal)
      (invoke depth f args) := by
  induction depth generalizing f args with
  | zero =>
    -- a script is refused here, with a fault
    obtain hf | ⟨steps, rfl⟩ := f.quiet_or_script
    · exact attributed_invoke_quiet hf 0 args
    · exact attributed_fault _
  | succ depth ih =>
    obtain hf | ⟨steps, rfl⟩ := f.quiet_or_script
    · exact attributed_invoke_quiet hf _ args
    -- the calls that its steps make are one level less deep; an evaluation of its own tree is the
    -- only other way to the error, and then the script itself is the origin
    · refine (attributed_performAll (fun s hs => ?_) .nothing).bind fun _ => attributed_pure _
      refine (attributed_perform ih hproblem s).mono ?_
      rintro ⟨x, source, rfl, hillegible⟩
      exact Or.inr ⟨steps, x, source, rfl, hs, hillegible⟩

end Session

namespace Engine

variable {e : Engine} {err : Error} {literal : String}

/-- Where solving fails at a literal, a function was called that is the origin of the error. -/
theorem Literate.exists_origin (h : e.Literate) {d : Datum}
    (hr : (e.step (.solve d)).1.result = .error (.error err))
    (hproblem : err.problem = .invalidLiteral literal) :
    ∃ i, .called i ∈ (e.step (.solve d)).1.events ∧ i.Originates err literal := by
  obtain ⟨w, hrun⟩ := exists_run_of_error hr
  have hinvoke := Session.attributed_invoke hproblem Session.maxNesting
  have hsolve : Session.Attributed err literal False (Session.run (.solve d)) :=
    (Session.attributed_solve hinvoke hproblem d).bind fun _ => Session.attributed_pure _
  have hfound := (hsolve.origin (w := ⟨e, []⟩) h hrun).resolve_right id
  rw [step_of_error hrun]
  exact hfound

end Engine

end Reckon
