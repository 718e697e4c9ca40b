import Reckon.Proofs.Engine.Containment
import Reckon.Proofs.Engine.Nested
/-
  Where levels come from. Tables of levels are checked when they are read from plain data, and hold
  whole numbers. The levels of a new operator are not checked: they are entered as they are given.
  So each level that an engine has is a whole number, or it was given with a new operator of that
  name (`Engine.steps_levels`), by a step from outside or by one that a function has performed. If
  only whole numbers are given, tokens are never read with levels that have no order.

  Any other level is taken without a word, and is noticed only later: by a text in which the
  operator meets another level (`Engine.steps_levels_text`).
-/
namespace Reckon

/-! ## Levels that are given -/

/-- A step that gives levels as data that are still to be checked, or with a new operator for which
they are among the levels `G`. -/
def Step.GivesLevels (G : String → Level → Prop) : Step → Prop
  | .setPrecedence levels => levels.IsData
  | .reset _ levels _ _ _ => levels.IsData
  | .addOperator operator binary binaryLevel unary unaryLevel _ => ∀ name, operator = .str name →
    (binary.isSome = true → G name binaryLevel) ∧ (unary.isSome = true → G name unaryLevel)
  | _ => True

/-- A level that is a whole number, or was given to the operator. -/
def Accounted (G : String → Level → Prop) (op : String) (level : Level) : Prop :=
  (∃ m : Int, level = .int m) ∨ G op level

variable {G : String → Level → Prop}

theorem Step.GivesLevels.isData {s : Step} (h : s.GivesLevels G) :
    ∀ levels ∈ s.levels?, levels.IsData := by
  intro levels hlevels
  cases s with
  | setPrecedence | reset =>
    rw [← Option.some.inj hlevels]
    exact h
  | _ => exact absurd hlevels (by simp [Step.levels?])

/-- The table of an operator's form with the level of one more operator, if the form is given. -/
theorem accounted_insert {t : Table Level} {stray : List (String × Level)}
    (h : ∀ e ∈ t ++ stray, Accounted G e.1 e.2) {name : String} {level : Level}
    (hlevel : G name level) : ∀ e ∈ t.insert name level ++ stray, Accounted G e.1 e.2 := by
  intro e he
  rcases List.mem_append.1 he with he | he
  · rcases Table.of_mem_insert he with rfl | he
    · exact Or.inr hlevel
    · exact h e (List.mem_append_left _ he)
  · exact h e (List.mem_append_right _ he)

theorem Precedence.Lists.withLevels {p : Precedence} (h : p.Lists (Accounted G)) {name : String}
    {binary unary : Option Function} {binaryLevel unaryLevel : Level}
    (hb : binary.isSome = true → G name binaryLevel)
    (hu : unary.isSome = true → G name unaryLevel) (isRight : Bool) :
    (Session.withLevels p name (binary.map fun _ => binaryLevel) (unary.map fun _ => unaryLevel)
      isRight).Lists (Accounted G) := by
  constructor
  · cases unary with
    | none => exact h.unary
    | some f => exact accounted_insert h.unary (hu rfl)
  · cases binary with
    | none => exact h.binary
    | some f => exact accounted_insert h.binary (hb rfl)

theorem Precedence.accounted_read {levels : Precedence.Source} (hlevels : levels.IsData)
    {p : Precedence} (h : ofSource levels = .ok p) : p.Lists (Accounted G) :=
  (lists_read hlevels h).imp fun _ _ => Or.inl

/-- All levels stay accounted for. -/
theorem Step.Alters.accounted {s : Step} {t t' : Tables} (h : s.Alters t t')
    (hs : s.GivesLevels G) (ht : t.precedence.Lists (Accounted G)) :
    t'.precedence.Lists (Accounted G) := by
  obtain heq | ⟨levels, hlevels, hread⟩ | ⟨name, _, _, _, _, isRight, rfl, heq⟩ :=
    h.precedence_cases
  · rw [heq]
    exact ht
  · exact Precedence.accounted_read (hs.isData levels hlevels) hread
  · obtain ⟨hb, hu⟩ := hs name rfl
    rw [heq]
    exact ht.withLevels hb hu isRight

/-! ## Parsing -/

/-- With levels that are whole numbers, parsing gives no bare fault. -/
theorem Session.error_of_parse {w w' : World} {ts : List Token} {source : Option String}
    {f : Failure} (h : w.engine.Rooted) (hp : w.engine.tables.precedence.Integral)
    (hrun : (parse ts source >>= fun expr => pure (Answer.expr expr)) w = .error f w') :
    ∃ err, f = .error err := by
  obtain ⟨w₁, -, -, hparse⟩ := parse_lands h ts source
  obtain hfailed | ⟨_, _, -, hpure⟩ := exists_of_run_eq_error hrun
  · rw [hparse] at hfailed
    obtain ⟨err, herr, -⟩ := Engine.stage_of_freshParse hp (eq_of_outcome_eq_error hfailed)
    exact ⟨err, herr⟩
  · exact absurd hpure (by simp [pure, EStateM.pure])

namespace Engine

/-- An engine on which tokens and texts that cannot be parsed are reported as errors of an
expression, whatever step they are given to. -/
structure ParsesCleanly (e : Engine) : Prop where
  parse {ts : List Token} {source : Option String} {f : Failure} :
    (e.step (.parse (some ts) source)).1.result = .error f → ∃ err, f = .error err
  parseText {text : String} {source : Option String} {f : Failure} :
    (e.step (.parseText (.str text) source)).1.result = .error f → ∃ err, f = .error err
  /-- Solving may fail otherwise, but then the text has a tree. -/
  solve {text : String} {f : Failure} : (e.step (.solve (.str text))).1.result = .error f →
    (∃ err, f = .error err) ∨ ∃ tree, e.freshTree text = .ok tree

variable {e : Engine} {text : String} {source : Option String} {f : Failure}

theorem error_of_parseText (h : e.Rooted) (hp : e.tables.precedence.Integral)
    (hr : (e.step (.parseText (.str text) source)).1.result = .error f) :
    ∃ err, f = .error err := by
  obtain ⟨w, hrun⟩ := exists_run_of_error hr
  obtain ⟨w₁, hbuilt, -, htokenize⟩ := Session.tokenize_lands (w := ⟨e, []⟩) h text
  obtain hfailed | ⟨ts, w₂, htokens, hparse⟩ := exists_of_run_eq_error hrun
  · rw [htokenize] at hfailed
    obtain ⟨err, herr, -⟩ := stage_of_freshTokens (eq_of_outcome_eq_error hfailed)
    exact ⟨err, herr⟩
  · have hleft : e.Built (left (Session.tokenize (.str text) ⟨e, []⟩)).engine := by
      rw [htokenize, left_outcome]
      exact hbuilt
    -- the tokens are parsed with the levels that the text was scanned with
    have hbuilt₂ : e.Built w₂.engine := of_eq_ok (P := fun w => e.Built w.engine) hleft htokens
    have hp₂ : w₂.engine.tables.precedence.Integral := by
      rw [hbuilt₂.same.tables]
      exact hp
    exact Session.error_of_parse hbuilt₂.rooted hp₂ hparse

theorem error_of_freshTree (hp : e.tables.precedence.Integral)
    (h : e.freshTree text = .error f) : ∃ err, f = .error err := by
  obtain htokens | ⟨ts, -, hparse⟩ := of_freshTree_eq_error h
  · obtain ⟨err, herr, -⟩ := stage_of_freshTokens htokens
    exact ⟨err, herr⟩
  · obtain ⟨err, herr, -⟩ := stage_of_freshParse hp hparse
    exact ⟨err, herr⟩

theorem parsesCleanly (h : e.Rooted) (hp : e.tables.precedence.Integral) : e.ParsesCleanly where
  parse hr := by
    obtain ⟨w, hrun⟩ := exists_run_of_error hr
    exact Session.error_of_parse (w := ⟨e, []⟩) h hp hrun
  parseText hr := error_of_parseText h hp hr
  solve hr := by
    obtain hfresh | ⟨tree, _, _, htree, -⟩ := solve_error_cases h hr
    · exact Or.inl (error_of_freshTree hp hfresh)
    · exact Or.inr ⟨tree, htree⟩

/-! ## Levels in force -/

variable {P : Function → Prop} {limits : Limits} {caching : Bool} {cacheSize operators : Datum}
  {levels : Precedence.Source} {bindings : List (String × Value)}
  {operatorFunctions : OperatorSource} {functions : List (String × Function)} {c : Change}

/-- On an engine whose tables of levels were given as data to be checked, with new operators added
by steps from outside and by functions that are called: each level is a whole number, or was given
with an operator of the name. If whole numbers were given only, what cannot be parsed is reported as
an error of an expression. -/
theorem steps_levels (hclosed : Function.Closed (Step.GivesLevels G) P) (hlevels : levels.IsData)
    (ho : operatorFunctions.Every P) (hf : ∀ e ∈ functions, P e.2)
    (hc : create limits caching cacheSize operators levels bindings operatorFunctions functions
      = .ok c) {ss : List Step} (hss : ∀ s ∈ ss, s.GivesLevels G ∧ s.Brings P)
    {e : Engine} (he : e = (c.engine.steps ss).2) :
    (∀ op level, (op, level) ∈ e.tables.precedence.shownUnary
        ∨ (op, level) ∈ e.tables.precedence.shownBinary →
          (∃ m : Int, level = .int m) ∨ G op level)
      ∧ ((∀ op level, G op level → ∃ m : Int, level = .int m) → e.ParsesCleanly) := by
  have hcreate : c.engine.Upholds P fun t => t.precedence.Lists (Accounted G) :=
    upholds_create hc hclosed.native ho hf
      (Precedence.accounted_read hlevels (Tables.of_read (of_create hc).1).2.1)
  have h := hcreate.steps hclosed (fun hs _ _ halters ht => halters.accounted hs ht) hss
  rw [← he] at h
  refine ⟨fun op level hlevel => ?_, fun hwhole => ?_⟩
  · obtain hu | hb := hlevel
    · exact h.holds.unary _ hu
    · exact h.holds.binary _ hb
  · have hints : ∀ op level, Accounted G op level → ∃ m : Int, level = .int m := by
      rintro op level (hint | hgiven)
      · exact hint
      · exact hwhole op level hgiven
    exact parsesCleanly h.rooted (h.holds.imp hints).integral

/-- A function adds an operator in the middle of an evaluation. -/
def tilde : Function :=
  .script [.addOperator (.str "~") (some (.record "g")) (.int 3) none .none false]

theorem closed_tilde : Function.Closed (Step.GivesLevels fun _ level => level = .int 3)
    fun f => f.Quiet ∨ f = tilde where
  native _ := Or.inl trivial
  script := by
    rintro steps (hquiet | hsteps) s hs
    · exact hquiet.elim
    · obtain rfl := Function.script.inj hsteps
      rw [List.mem_singleton.1 hs]
      refine ⟨fun _ _ => ⟨fun _ => rfl, fun h => absurd h (by simp)⟩, ?_, by simp⟩
      intro g hg
      rw [← Option.some.inj hg]
      exact Or.inl trivial

theorem steps_levels_tilde :
    ∃ c e, create {} true (.int 256) .none .standard [] (.datum .none) [("f", tilde)] = .ok c
      ∧ e = (c.engine.steps [.solve (.str "f()")]).2
      ∧ e.tables.precedence.binaryLevel "~" = some (.int 3)
      ∧ (∀ op level, (op, level) ∈ e.tables.precedence.shownUnary
          ∨ (op, level) ∈ e.tables.precedence.shownBinary → ∃ m : Int, level = .int m)
      ∧ e.ParsesCleanly := by
  obtain ⟨c, hc⟩ : ∃ c, create {} true (.int 256) .none .standard [] (.datum .none) [("f", tilde)]
      = .ok c := ⟨_, rfl⟩
  obtain ⟨e, he⟩ : ∃ e, e = (c.engine.steps [.solve (.str "f()")]).2 := ⟨_, rfl⟩
  have hlevel : e.tables.precedence.binaryLevel "~" = some (.int 3) := by
    rw [he, ← Except.ok.inj hc]
    rfl
  have hfunctions : ∀ e ∈ [("f", tilde)], e.2.Quiet ∨ e.2 = tilde := by
    intro e he
    rw [List.mem_singleton.1 he]
    exact Or.inr rfl
  have hsolve : ∀ s ∈ [Step.solve (.str "f()")],
      s.GivesLevels (fun _ level => level = .int 3)
        ∧ s.Brings fun f => f.Quiet ∨ f = tilde := by
    intro s hs
    rw [List.mem_singleton.1 hs]
    exact ⟨trivial, trivial⟩
  have hstandard : Precedence.Source.IsData .standard := trivial
  have hdefault : OperatorSource.Every (fun f => f.Quiet ∨ f = tilde) (.datum .none) := trivial
  have hwhole : ∀ (op : String) (level : Level), level = .int 3 → ∃ m : Int, level = .int m :=
    fun _ _ h => ⟨3, h⟩
  obtain ⟨hlevels, hparse⟩ :=
    steps_levels closed_tilde hstandard hdefault hfunctions hc hsolve he
  exact ⟨c, e, hc, he, hlevel, fun op level h => (hlevels op level h).elim id (hwhole op level),
    hparse hwhole⟩

/-- A text is taken for the level of an operator, and the next sum cannot be read. -/
theorem steps_levels_text :
    ∃ c r r' e, create {} true (.int 256) .none .standard [] (.datum .none) [] = .ok c
      ∧ c.engine.steps [.addOperator (.str "+") (some (.record "g")) (.str "high") none .none false,
          .solve (.str "1 + 2")] = ([r, r'], e)
      ∧ r.result = .ok .nothing
      ∧ e.tables.precedence.binaryLevel "+" = some (.str "high")
      ∧ r'.result = .error (.fault (.unordered "<=" "str" "int")) := by
  obtain ⟨c, hc⟩ : ∃ c, create {} true (.int 256) .none .standard [] (.datum .none) [] = .ok c :=
    ⟨_, rfl⟩
  refine ⟨c, _, _, _, hc, rfl, ?_⟩
  rw [← Except.ok.inj hc]
  exact ⟨rfl, rfl, rfl⟩

end Engine

end Reckon
