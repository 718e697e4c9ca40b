import Reckon.Proofs.Engine.Origin
/-
  Scanning and evaluation have the same literals. The scanner finds literals only, and all literals,
  and their values are what they denote. So solving a text that is not too long does not fail at a
  literal of the text (`Engine.literals_agree`).

  The standard operators and the built-in functions do not fail at literals either. Where only
  functions like these are in force, solving never comes to such an error (`Engine.solve_legible`).
-/
namespace Reckon

open Lexeme

/-! ## Functions that are legible -/

namespace Function

/-- A function that performs no steps, and never comes to a literal that cannot be read. -/
structure Legible (f : Function) : Prop where
  quiet : f.Quiet
  apply : ∀ args err literal, f.apply args = .error (.error err) →
    err.problem ≠ .invalidLiteral literal

theorem Placeless.legible {f : Function} (h : f.Placeless) (hf : f.Quiet) : f.Legible where
  quiet := hf
  apply args err literal herr := by
    obtain ⟨fault, hfault⟩ | ⟨_, name, reason, hrejected, hproblem, -⟩ := h args _ herr
    · exact absurd hfault (by simp)
    · rw [Failure.error.inj hrejected, hproblem]
      simp

theorem legible_builtin (b : Builtin) : b.function.Legible :=
  (IsBuiltin.placeless ⟨b, rfl⟩).legible (quiet_native _)

end Function

namespace OperatorFunctions

/-- The standard operators are legible. -/
theorem legible_default : default.Every Function.Legible := by
  have hquiet : default.Every Function.Quiet := every_default Function.quiet_native
  have hstandard : ∀ f : Function, f.IsStandard → f.Quiet → f.Legible := fun _ hf =>
    hf.raisesFaults.placeless.legible
  exact ⟨fun op f hf => hstandard f (Or.inl ⟨op, hf⟩) (hquiet.unary op f hf),
    fun op f hf => hstandard f (Or.inr ⟨op, hf⟩) (hquiet.binary op f hf)⟩

end OperatorFunctions

namespace Engine

variable {e : Engine}

/-! ## Solving -/

/-- Solving that fails with an error has a text to solve. -/
theorem exists_text_of_error {d : Datum} {err : Error}
    (hr : (e.step (.solve d)).1.result = .error (.error err)) : ∃ text, d = .str text := by
  cases hd : Session.sourceOf d with
  | some text =>
    cases d with
    | str => exact ⟨_, rfl⟩
    | none | bool | int | float | list | dict => exact absurd hd (by simp [Session.sourceOf])
  | none =>
    obtain ⟨w, hrun⟩ := exists_run_of_error hr
    obtain ⟨f, hrefused⟩ := ((Session.refused_tree hd).bind fun expr =>
      Session.evaluate (Session.invoke Session.maxNesting) expr (Session.sourceOf d)).bind
        (fun v => pure (Answer.value v)) ⟨e, []⟩
    obtain ⟨hfault, -⟩ := EStateM.Result.error.inj (hrun.symm.trans hrefused)
    exact absurd hfault (by simp)

/-- With legible functions in force, solving never fails at a literal. -/
theorem solve_legible (h : e.Literate) (hlegible : e.tables.Every Function.Legible) {d : Datum}
    {err : Error} (hr : (e.step (.solve d)).1.result = .error (.error err)) (literal : String) :
    err.problem ≠ .invalidLiteral literal := by
  intro hproblem
  obtain ⟨text, rfl⟩ := exists_text_of_error hr
  obtain htree | ⟨tree, w, w', htree, hbuilt, heval, -⟩ := solve_error_cases h.rooted hr
  · refine stage_ne_of_freshTree htree ?_
    rw [hproblem]
    rfl
  · have hbehind : w.engine.Literate :=
      invariant_literate.move (.build (w := ⟨e, w.events⟩) hbuilt List.prefix_rfl) h
    have hbegun : (w.engine.beginEvaluation (some text)).Literate :=
      invariant_literate.move (.begin w _) hbehind
    obtain hillegible | ⟨node, w₁, w₂, f, args, hreach, hf, -, hcall⟩ :=
      Session.of_eval_invalidLiteral (Session.walks_invoke _) hbegun heval hproblem
    · exact h.not_illegible htree literal hillegible
    · rw [← hbuilt.same.tables] at hlegible
      have hscope : ∀ f, (w.engine.beginEvaluation (some text)).scope.Has f → f.Legible :=
        fun _ hf => hlegible.of_scope Function.legible_builtin (some text) hf
      have hengine : w₁.engine = w.engine.beginEvaluation (some text) :=
        Session.engine_reaches (fun f hf => (hscope f hf).quiet) rfl hreach
      rw [hengine] at hf
      obtain ⟨happly, -, -⟩ := Session.of_call_eq_error (hscope f hf).quiet hcall
      exact (hscope f hf).apply args err literal happly hproblem

variable {limits : Limits} {caching : Bool} {cacheSize operators : Datum}
  {levels : Precedence.Source} {bindings : List (String × Value)}
  {operatorFunctions : OperatorSource} {functions : List (String × Function)} {c : Change}

theorem limits_create (hc : create limits caching cacheSize operators levels bindings
    operatorFunctions functions = .ok c) : c.engine.limits = limits := by
  obtain ⟨_, _, -, -, rfl⟩ := create_eq_ok_iff.1 hc
  rfl

/-- Scanning and evaluation have the same literals. With any operators, the constants of any text
are literals, and a text that is a literal is this one constant, unless an operator stands at its
start or the text is too long. The literals are what denotes something, and the value of a literal
is what it denotes, but for more than 4300 decimal digits alone. So on any engine that is made with
a limit of at most 4300 characters, and used in any way, solving never fails at a literal, as long
as the functions in force do not come to such an error themselves. Whatever functions are in force,
the error is none of the text: if solving fails like that, a function was called that came to the
error by itself, or that evaluates a tree of its own with this literal. -/
theorem literals_agree {d : Datum} {ops : List String} (hops : Scanner.operators? d = .ok ops)
    (hc : create limits caching cacheSize operators levels bindings operatorFunctions functions
      = .ok c) (hlimit : limits.expressionLength ≤ 4300) :
    (∀ (l : Limits) (text : String) (ts : List Token), Scanner.tokensOf d l text = .ok ts →
        ∀ t ∈ ts, t.kind = .constant → IsLiteral t.text.toList)
      ∧ (∀ (l : Limits) (text : String), IsLiteral text.toList →
        (∀ op ∈ ops, ¬ op.toList <+: text.toList) →
        (text.toList.length : Int) ≤ l.expressionLength →
        Scanner.tokensOf d l text = .ok [⟨.constant, text, 0⟩])
      ∧ (∀ cs, IsLiteral cs ↔ ∃ v, Literal.Denotes cs v)
      ∧ (∀ (text : String) (v : Value), Literal.Denotes text.toList v →
        ((∀ c ∈ text.toList, c.isDigit = true) → text.toList.length ≤ 4300) →
        Literal.value text = .ok v)
      ∧ ∀ (ss : List Step) (expression : Datum) (err : Error),
        ((c.engine.steps ss).2.step (.solve expression)).1.result = .error (.error err) →
        ((c.engine.steps ss).2.tables.Every Function.Legible →
          ∀ literal, err.problem ≠ .invalidLiteral literal)
        ∧ ∀ literal, err.problem = .invalidLiteral literal →
          ∃ i, .called i ∈ ((c.engine.steps ss).2.step (.solve expression)).1.events
            ∧ i.Originates err literal := by
  refine ⟨fun l text ts htokens t ht hkind => ?_, fun _ _ => Scanner.tokensOf_of_isLiteral hops,
    fun _ => Literal.isLiteral_iff_exists_denotes, fun _ _ => Literal.value_of_denotes,
    fun ss expression err hr => ?_⟩
  · rw [Scanner.tokensOf_eq hops] at htokens
    obtain ⟨n, -, -, -, htakes⟩ := (Token.cover_of_ofText htokens).takes t ht
    rw [hkind] at htakes
    exact htakes.holds
  · rw [← limits_create hc] at hlimit
    have hliterate : (c.engine.steps ss).2.Literate := invariant_literate.steps (rooted_create hc)
      ⟨rooted_create hc, trie_create hc, hlimit⟩ ss
    exact ⟨fun hlegible => solve_legible hliterate hlegible hr, fun _ => hliterate.exists_origin hr⟩

/-- Operators that are letters of literals, and a standard engine that fails, but not at the
literal. -/
theorem literals_agree_mixed :
    ∃ c err, create {} true (.int 4) .none .standard [] (.datum .none) [] = .ok c
      ∧ ({} : Limits).expressionLength ≤ 4300
      ∧ Scanner.operators? (.list [.str "-", .str "e5", .str "1."]) = .ok ["-", "e5", "1."]
      ∧ Scanner.tokensOf (.list [.str "-", .str "e5", .str "1."]) {} "0x1e5"
        = .ok [⟨.constant, "0x1e5", 0⟩]
      ∧ Literal.value "0x1e5" = .ok (.int 485) ∧ Literal.value "007" = .ok (.int 7)
      ∧ (c.engine.step (.solve (.str "0x1e5 / 000"))).1.result = .error (.error err)
      ∧ ∀ literal, err.problem ≠ .invalidLiteral literal := by
  obtain ⟨c, hc⟩ : ∃ c, create {} true (.int 4) .none .standard [] (.datum .none) [] = .ok c :=
    ⟨_, rfl⟩
  have hlimit : ({} : Limits).expressionLength ≤ 4300 := by decide
  have hops : Scanner.operators? (.list [.str "-", .str "e5", .str "1."])
      = .ok ["-", "e5", "1."] := rfl
  obtain ⟨-, htokens, -, hvalue, hsolve⟩ := literals_agree hops hc hlimit
  have hfailed : (c.engine.step (.solve (.str "0x1e5 / 000"))).1.error?.isSome = true := by
    rw [← Except.ok.inj hc]
    decide +kernel
  obtain ⟨err, herr⟩ := Option.isSome_iff_exists.1 hfailed
  have hr := Report.result_of_error? herr
  have hlegible : c.engine.tables.Every Function.Legible := by
    rw [← Except.ok.inj hc]
    exact ⟨OperatorFunctions.legible_default, Table.every_nil⟩
  have hhex : Literal.Denotes "0x1e5".toList (.int (Reading.natOf 16 "1e5".toList)) :=
    .hexadecimal (by decide) ⟨by decide, List.all_eq_true.1 (by decide)⟩
  have hwhole : Literal.Denotes "007".toList (.int (Reading.natOf 10 "007".toList)) :=
    .whole ⟨by decide, List.all_eq_true.1 (by decide)⟩
  have hliteral : IsLiteral "0x1e5".toList := Literal.isLiteral_iff_exists_denotes.2 ⟨_, hhex⟩
  exact ⟨c, err, hc, hlimit, hops, htokens {} "0x1e5" hliteral (by decide) (by decide),
    hvalue _ _ hhex fun _ => by decide, hvalue _ _ hwhole fun _ => by decide, hr,
    (hsolve [] (.str "0x1e5 / 000") err hr).1 hlegible⟩

end Engine

end Reckon
