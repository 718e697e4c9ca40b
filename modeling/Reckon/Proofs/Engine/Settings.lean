import Reckon.Proofs.Engine.Transparency
import Reckon.Proofs.Engine.Moves
import Reckon.Proofs.Token.Scanning
/-
  What a step makes of the settings. While only quiet functions are in force, no evaluation touches
  the settings. So a step from outside leaves them as they are, revises them, or makes an operator
  known, at least as a word and with its levels (`Step.Alters`, `Engine.alters_step`). What every
  such change keeps holds after any steps that bring in quiet functions only
  (`Engine.steps_tables`), and what is remembered then is never wrong (`Engine.Sound.steps`).
-/
namespace Reckon

/-- What a step from outside can make of the settings. -/
inductive Step.Alters : Step → Tables → Tables → Prop where
  | same (s : Step) (t : Tables) : Alters s t t
  | revise {s : Step} {a : Aim} {t t' : Tables} (ha : s.aim? = some a)
    (hr : s.revise t = .ok t') : Alters s t t'
  | announce {operator : Datum} {binary : Option Function} {binaryLevel : Datum}
    {unary : Option Function} {unaryLevel : Datum} {name : String}
    (haccept : Session.accept operator binary binaryLevel unary unaryLevel = .ok name)
    (isRight : Bool) (t : Tables) :
    Alters (.addOperator operator binary binaryLevel unary unaryLevel isRight) t
      (t.announce name (binary.map fun _ => binaryLevel) (unary.map fun _ => unaryLevel) isRight)
  | extend {operator : Datum} {binary : Option Function} {binaryLevel : Datum}
    {unary : Option Function} {unaryLevel : Datum} {name : String}
    (haccept : Session.accept operator binary binaryLevel unary unaryLevel = .ok name)
    (isRight : Bool) {t : Tables} {o : OperatorFunctions}
    (ho : t.operatorFunctions.extend name binary unary = .ok o) :
    Alters (.addOperator operator binary binaryLevel unary unaryLevel isRight) t
      { t.announce name (binary.map fun _ => binaryLevel) (unary.map fun _ => unaryLevel) isRight
        with operatorFunctions := o }

/-- A step changes the settings as far as it aims, and leaves the rest. -/
theorem Step.splice_of_revise {s : Step} {a : Aim} {t t' : Tables} (ha : s.aim? = some a)
    (hr : s.revise t = .ok t') : t' = a.splice t t' := by
  have hmakes := Session.makes_revise Session.answer ha ⟨(Engine.ofTables {} true 0 t).engine, []⟩
  have ht : (Engine.ofTables {} true 0 t).engine.tables = t := rfl
  rw [ht, hr] at hmakes
  obtain ⟨w', -, rfl, hchanged, -⟩ := hmakes
  exact hchanged.tables

theorem Step.Alters.eq_of_solve {d : Datum} {t t' : Tables} (h : (Step.solve d).Alters t t') :
    t' = t := by
  cases h with
  | same => rfl
  | revise ha _ => exact absurd ha (by simp [Step.aim?])

/-- Settings keep what holds of the functions that a step brings in. -/
theorem Step.Alters.every {P : Function → Prop} (hP : ∀ run, P (.native run)) {s : Step}
    {t t' : Tables} (h : s.Alters t t') (hs : s.Brings P) (ht : t.Every P) : t'.Every P := by
  cases h with
  | same => exact ht
  | revise _ hr => exact ht.revise hP hs hr
  | announce => exact ⟨ht.operatorFunctions, ht.functions⟩
  | extend _ _ ho => exact ⟨ht.operatorFunctions.extend hs.1 hs.2 ho, ht.functions⟩

/-- Where a step takes levels from, if it replaces them. -/
def Step.levels? : Step → Option Precedence.Source
  | .setPrecedence levels => some levels
  | .reset _ levels _ _ _ => some levels
  | _ => none

/-- Levels stay, or they are replaced by others, or those of one more operator are added. -/
theorem Step.Alters.precedence_cases {s : Step} {t t' : Tables} (h : s.Alters t t') :
    t'.precedence = t.precedence
      ∨ (∃ levels ∈ s.levels?, Precedence.ofSource levels = .ok t'.precedence)
      ∨ ∃ name binary binaryLevel unary unaryLevel isRight,
          s = .addOperator (.str name) binary binaryLevel unary unaryLevel isRight
            ∧ t'.precedence = Session.withLevels t.precedence name (binary.map fun _ => binaryLevel)
                (unary.map fun _ => unaryLevel) isRight := by
  have hname : ∀ {operator binary binaryLevel unary unaryLevel name},
      Session.accept operator binary binaryLevel unary unaryLevel = .ok name →
        operator = .str name := by
    intro operator binary binaryLevel unary unaryLevel name haccept
    obtain ⟨_, -, hoperator⟩ := exists_of_bind_eq_ok haccept
    exact Datum.of_operator hoperator
  cases h with
  | same => exact Or.inl rfl
  | announce haccept isRight =>
    obtain rfl := hname haccept
    exact Or.inr (Or.inr ⟨_, _, _, _, _, isRight, rfl, rfl⟩)
  | extend haccept isRight =>
    obtain rfl := hname haccept
    exact Or.inr (Or.inr ⟨_, _, _, _, _, isRight, rfl, rfl⟩)
  | revise ha hr =>
    match s with
    | .setPrecedence levels =>
      obtain ⟨p, hp, hr⟩ := exists_of_bind_eq_ok hr
      rw [← Except.ok.inj hr]
      exact Or.inr (Or.inl ⟨levels, rfl, hp⟩)
    | .reset _ levels _ _ _ => exact Or.inr (Or.inl ⟨levels, rfl, (Tables.of_read hr).2.1⟩)
    | .setOperators _ | .setOperatorFunctions _ | .addVariable .. | .addVariables _ |
      .setVariables _ | .removeVariable _ | .addFunction .. | .addFunctions _ | .setFunctions _ |
      .removeFunction _ =>
      left
      obtain rfl := Option.some.inj ha
      rw [Step.splice_of_revise rfl hr]
      rfl
    | .solve _ | .tokenize _ | .parse .. | .parseText .. | .evaluate .. | .addOperator .. |
      .clearCaches | .snapshot | .invalid _ => exact absurd ha (by simp [Step.aim?])

/-- What texts are scanned with depends on the operators only. -/
theorem Aim.splice_operators {a : Aim} (h : a.rescans = false) (old new : Tables) :
    (a.splice old new).operators = old.operators := by
  cases a with
  | operators | everything => exact absurd h (by decide)
  | precedence | operatorFunctions | bindings | functions => rfl

namespace Session

variable {w : World}

theorem text_or_stuck (d : Datum) : (∃ text, d = .str text) ∨ sourceOf d = none := by
  cases d with
  | str text => exact Or.inl ⟨text, rfl⟩
  | none | bool | int | float | list | dict => exact Or.inr rfl

theorem same_of_lands {α : Type} {m : Run α} {r : Except Failure α}
    (h : Lands Engine.Built m w r) : (left (m w)).engine.SameSettings w.engine := by
  obtain ⟨w', hbuilt, -, hrun⟩ := h
  rw [hrun, left_outcome]
  exact hbuilt.same

theorem Stuck.same {α : Type} {m : Run α} (h : Stuck m) (w : World) :
    (left (m w)).engine.SameSettings w.engine := by
  obtain ⟨f, hrun⟩ := h w
  rw [hrun]
  exact .refl _

/-- Working on a text leaves the settings alone. -/
theorem same_tree (h : w.engine.Rooted) (d : Datum) :
    (left (tree d w)).engine.SameSettings w.engine := by
  obtain ⟨text, rfl⟩ | hd := text_or_stuck d
  · exact same_of_lands (tree_lands h text)
  · exact (stuck_tree hd).same w

theorem same_tokenize (h : w.engine.Rooted) (d : Datum) :
    (left (tokenize d w)).engine.SameSettings w.engine := by
  obtain ⟨text, rfl⟩ | hd := text_or_stuck d
  · exact same_of_lands (tokenize_lands h text)
  · exact (stuck_tokenize hd).same w

theorem same_remembering (w : World) (expr : Expr) (v : Value) :
    (remembering w expr v).engine.SameSettings w.engine := by
  unfold remembering
  split
  · exact ⟨rfl, rfl, rfl⟩
  · exact .refl _

/-- An evaluation that calls quiet functions only leaves the settings alone. -/
theorem same_evaluate (hq : w.engine.tables.Every Function.Quiet) (depth : Nat) (expr : Expr)
    (source : Option String) :
    (left (evaluate (invoke depth) expr source w)).engine.SameSettings w.engine := by
  obtain heq | ⟨-, v, engine, hr, heq⟩ := evaluate_cases (invoke depth) expr source w
  · have hquiet : (w.engine.beginEvaluation source).scope.Quiet := fun _ hf =>
      hq.scope Function.quiet_native source hf
    have hrun :=
      eval_eq (w := { w with engine := w.engine.beginEvaluation source }) hquiet depth expr
    have hbegun : (w.engine.beginEvaluation source).SameSettings w.engine := ⟨rfl, rfl, rfl⟩
    rw [heq]
    cases hv : (expr.evaluate (w.engine.beginEvaluation source).scope).result with
    | error f =>
      rw [hv] at hrun
      rw [compute_of_eq_error hrun]
      exact hbegun
    | ok v =>
      rw [hv] at hrun
      rw [compute_of_eq_ok hrun]
      exact (same_remembering _ expr v).trans hbegun
  · have hsame : (recallResult expr w.engine).2.SameSettings w.engine := ⟨rfl, rfl, rfl⟩
    rw [hr] at hsame
    rw [heq]
    exact hsame

/-- A computation in parts leaves the settings alone if its parts do. -/
theorem same_bind {α β : Type} {m : Run α} {k : α → Run β}
    (hm : (left (m w)).engine.SameSettings w.engine)
    (hk : ∀ a w', m w = .ok a w' → (left (k a w')).engine.SameSettings w'.engine) :
    (left ((m >>= k) w)).engine.SameSettings w.engine := by
  cases hrun : m w with
  | ok a w' =>
    rw [hrun] at hm
    rw [bind_of_eq_ok hrun]
    exact (hk a w' hrun).trans hm
  | error f w' =>
    rw [hrun] at hm
    rw [bind_of_eq_error hrun]
    exact hm

theorem rooted_of_walks {α : Type} {m : Run α} (hm : Walks m) (h : w.engine.Rooted) {a : α}
    {w' : World} (hrun : m w = .ok a w') : w'.engine.Rooted :=
  of_eq_ok (P := fun w : World => w.engine.Rooted)
    ((hm w h).keeps (P := fun w => w.engine.Rooted) Engine.invariant_rooted.move h) hrun

theorem same_solve (h : w.engine.Rooted) (hq : w.engine.tables.Every Function.Quiet) (depth : Nat)
    (d : Datum) : (left (solve (invoke depth) d w)).engine.SameSettings w.engine := by
  refine same_bind (same_tree h d) fun expr w' hrun => ?_
  have hsame : w'.engine.SameSettings w.engine :=
    of_eq_ok (P := fun w' : World => w'.engine.SameSettings w.engine) (same_tree h d) hrun
  refine same_evaluate ?_ depth expr _
  rw [hsame.tables]
  exact hq

/-- A new operator is refused, announced, or added with its functions. -/
theorem alters_addOperator (w : World) (operator : Datum) (binary : Option Function)
    (binaryLevel : Datum) (unary : Option Function) (unaryLevel : Datum) (isRight : Bool) :
    (Step.addOperator operator binary binaryLevel unary unaryLevel isRight).Alters w.engine.tables
      (left (addOperator operator binary binaryLevel unary unaryLevel isRight w)).engine.tables := by
  cases haccept : accept operator binary binaryLevel unary unaryLevel with
  | error f =>
    rw [addOperator_refused haccept]
    exact .same ..
  | ok name =>
    cases ho : w.engine.tables.operatorFunctions.extend name binary unary with
    | error f =>
      obtain ⟨events, -, hrun⟩ := addOperator_announced haccept isRight ho
      rw [hrun]
      exact .announce haccept isRight _
    | ok o =>
      obtain ⟨events, -, hrun⟩ := addOperator_added haccept isRight ho
      rw [hrun]
      exact .extend haccept isRight ho

theorem alters_revise (invoke : Function → List Value → Run Value) {s : Step} {a : Aim}
    (ha : s.aim? = some a) (w : World) :
    s.Alters w.engine.tables (left (perform invoke s w)).engine.tables := by
  have hmakes := makes_revise invoke ha w
  cases hr : s.revise w.engine.tables with
  | ok t =>
    rw [hr] at hmakes
    obtain ⟨w', hrun, rfl, -, -⟩ := hmakes
    rw [hrun]
    exact .revise ha hr
  | error f =>
    rw [hr] at hmakes
    rw [show perform invoke s w = .error (.fault f) w from hmakes]
    exact .same ..

theorem alters_of_same {s : Step} {w' : World} (h : w'.engine.SameSettings w.engine) :
    s.Alters w.engine.tables w'.engine.tables := by
  rw [h.tables]
  exact .same ..

/-- What a step makes of the settings while quiet functions are in force. -/
theorem alters_perform (h : w.engine.Rooted) (hq : w.engine.tables.Every Function.Quiet)
    (depth : Nat) (s : Step) :
    s.Alters w.engine.tables (left (perform (invoke depth) s w)).engine.tables := by
  cases ha : s.aim? with
  | some a => exact alters_revise (invoke depth) ha w
  | none =>
    match s with
    | .solve d => exact alters_of_same (same_bind (same_solve h hq depth d) fun _ _ _ => .refl _)
    | .tokenize d => exact alters_of_same (same_bind (same_tokenize h d) fun _ _ _ => .refl _)
    | .parse none _ => exact .same ..
    | .parse (some ts) source =>
      exact alters_of_same (same_bind (same_of_lands (parse_lands h ts source)) fun _ _ _ => .refl _)
    | .parseText d source =>
      refine alters_of_same (same_bind (same_tokenize h d) fun ts w' hrun => ?_)
      have h' := rooted_of_walks (walks_tokenize d) h hrun
      exact same_bind (same_of_lands (parse_lands h' ts source)) fun _ _ _ => .refl _
    | .evaluate expr source =>
      exact alters_of_same (same_bind (same_evaluate hq depth expr source) fun _ _ _ => .refl _)
    | .addOperator operator binary binaryLevel unary unaryLevel isRight =>
      have hadd := alters_addOperator w operator binary binaryLevel unary unaryLevel isRight
      show Step.Alters _ _ (left ((addOperator operator binary binaryLevel unary unaryLevel isRight
        >>= fun _ => pure Answer.nothing) w)).engine.tables
      cases hrun : addOperator operator binary binaryLevel unary unaryLevel isRight w with
      | ok _ w' =>
        rw [hrun] at hadd
        rw [bind_of_eq_ok hrun]
        exact hadd
      | error f w' =>
        rw [hrun] at hadd
        rw [bind_of_eq_error hrun]
        exact hadd
    | .clearCaches | .snapshot | .invalid _ => exact .same ..

end Session

namespace Engine

variable {e : Engine}

theorem alters_step (h : e.Rooted) (hq : e.tables.Every Function.Quiet) (s : Step) :
    s.Alters e.tables (e.step s).2.tables := by
  rw [(e.step_eq_left s).1]
  exact Session.alters_perform (w := ⟨e, []⟩) h hq Session.maxNesting s

/-- What the steps make of the settings keeps whatever each of them keeps. -/
theorem steps_tables {I : Tables → Prop} (h : e.Rooted) (hq : e.tables.Every Function.Quiet)
    (hI : I e.tables) {ss : List Step} (hbrings : ∀ s ∈ ss, s.Brings Function.Quiet)
    (hkeeps : ∀ s ∈ ss, ∀ {t t'}, s.Alters t t' → I t → I t') :
    (e.steps ss).2.tables.Every Function.Quiet ∧ I (e.steps ss).2.tables := by
  induction ss generalizing e with
  | nil => exact ⟨hq, hI⟩
  | cons s ss ih =>
    have halters := alters_step h hq s
    have hs : s ∈ s :: ss := List.mem_cons_self ..
    refine ih (invariant_rooted.step h h s)
      (halters.every Function.quiet_native (hbrings s hs) hq) (hkeeps s hs halters hI) ?_ ?_
    · exact fun x hx => hbrings x (List.mem_cons_of_mem _ hx)
    · exact fun x hx => hkeeps x (List.mem_cons_of_mem _ hx)

/-! ## What is remembered -/

end Engine

theorem OperatorSource.quiet_of_every {source : OperatorSource}
    (h : source.Every Function.Quiet) : source.Quiet := by
  cases source with
  | datum d => exact trivial
  | tables unary binary => exact h
  | mapping entries =>
    intro e he
    have hevery := h e he
    cases hs : e.2 with
    | datum d => exact trivial
    | table fs =>
      rw [hs] at hevery
      exact hevery

/-- A step that brings in quiet functions only is a use from outside, or it is given no text where
it needs one. -/
theorem Step.Brings.direct_or_stuck {s : Step} (h : s.Brings Function.Quiet) :
    s.Direct ∨ ∀ invoke, Session.Stuck (Session.perform invoke s) := by
  match s with
  | .solve d =>
    obtain hd | hd := Session.text_or_stuck d
    · exact Or.inl hd
    · exact Or.inr fun _ => ((Session.stuck_tree hd).bind _).bind _
  | .tokenize d =>
    obtain hd | hd := Session.text_or_stuck d
    · exact Or.inl hd
    · exact Or.inr fun _ => (Session.stuck_tokenize hd).bind _
  | .parseText d source =>
    obtain hd | hd := Session.text_or_stuck d
    · exact Or.inl hd
    · exact Or.inr fun _ => (Session.stuck_tokenize hd).bind _
  | .setOperatorFunctions functions => exact Or.inl (OperatorSource.quiet_of_every h)
  | .reset .. => exact Or.inl ⟨OperatorSource.quiet_of_every h.1, h.2⟩
  | .addOperator .. => exact Or.inl h
  | .addFunction .. | .addFunctions _ | .setFunctions _ => exact Or.inl h
  | .parse .. | .evaluate .. | .setOperators _ | .setPrecedence _ | .addVariable .. |
    .addVariables _ | .setVariables _ | .removeVariable _ | .removeFunction _ | .clearCaches |
    .snapshot | .invalid _ => exact Or.inl trivial

namespace Engine

variable {e : Engine}

/-- An engine all of whose functions are quiet, and which remembers nothing wrong. -/
structure Sound (e : Engine) : Prop where
  faithful : e.Faithful
  quiet : e.tables.Every Function.Quiet

theorem Sound.linked (h : e.Sound) : e.Linked e := ⟨.refl e, h.faithful, h.faithful, h.quiet⟩

theorem Linked.sound {e' : Engine} (h : e.Linked e') : e.Sound := ⟨h.left, h.quiet⟩

theorem Sound.rest (h : e.Sound) : e.rest.Sound := h.linked.rest.sound

theorem Sound.step (h : e.Sound) {s : Step} (hs : s.Brings Function.Quiet) :
    (e.step s).2.Sound := by
  obtain hdirect | hstuck := hs.direct_or_stuck
  · exact (h.linked.step hdirect).2.sound
  · obtain ⟨f, hrun⟩ := hstuck (Session.invoke Session.maxNesting) ⟨e, []⟩
    rw [step_of_error hrun]
    exact h.rest

/-- Steps that bring in quiet functions only leave nothing wrong behind. -/
theorem Sound.steps (h : e.Sound) {ss : List Step}
    (hss : ∀ s ∈ ss, s.Brings Function.Quiet) : (e.steps ss).2.Sound := by
  induction ss generalizing e with
  | nil => exact h
  | cons s ss ih =>
    exact ih (h.step (hss s (List.mem_cons_self ..))) fun x hx =>
      hss x (List.mem_cons_of_mem _ hx)

variable {limits : Limits} {caching : Bool} {cacheSize operators : Datum}
  {levels : Precedence.Source} {bindings : List (String × Value)}
  {operatorFunctions : OperatorSource} {functions : List (String × Function)} {c : Change}

theorem sound_create (hc : create limits caching cacheSize operators levels bindings
    operatorFunctions functions = .ok c) (ho : operatorFunctions.Every Function.Quiet)
    (hf : ∀ e ∈ functions, e.2.Quiet) : c.engine.Sound := by
  obtain ⟨hread, -, hclear⟩ := of_create hc
  refine ⟨?_, Tables.every_read Function.quiet_native ho hf hread⟩
  rw [← hclear]
  exact faithful_clearCaches _

/-! ## The trie -/

/-- Texts are always scanned with the operators in force. -/
theorem invariant_trie : Invariant fun e => e.trie = .ofList e.tables.operators where
  move := by
    intro w w' hmove h
    cases hmove with
    | build hbuilt =>
      rw [hbuilt.same.trie, hbuilt.same.tables]
      exact h
    | begin | reuse | remember | forget | extend => exact h
    | announce => exact rfl
    | @revise _ _ a _ _ hchanged _ =>
      rw [hchanged.trie]
      cases hscan : a.rescans with
      | true => rfl
      | false =>
        have hoperators : w'.engine.tables.operators = w.engine.tables.operators := by
          rw [hchanged.tables]
          exact Aim.splice_operators hscan _ _
        rw [hoperators]
        exact h
  rest h := h

theorem trie_create (hc : create limits caching cacheSize operators levels bindings
    operatorFunctions functions = .ok c) : c.engine.trie = .ofList c.engine.tables.operators := by
  obtain ⟨size, tables, -, -, rfl⟩ := create_eq_ok_iff.1 hc
  rfl

end Engine

end Reckon
