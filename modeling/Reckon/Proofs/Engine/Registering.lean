import Reckon.Proofs.Engine.Moves
/-
  Adding an operator takes three changes in a row: a word, levels, functions. Whatever is wrong with
  the first two is found before any of them is made. That a function cannot be called is found only
  when the functions are put together, and by then the operator is announced.

  So an operator that is refused leaves the engine as it was if its functions can be called
  (`Engine.addOperator_failed`). If they cannot, the engine may be left with the word and the levels
  of the operator, and later expressions are read with them (`Engine.addOperator_not_atomic`). It
  matters that the functions in force can all be called, which is an invariant
  (`Engine.invariant_callable`): nothing but the new functions is to blame.
-/
namespace Reckon

/-! ## Functions that can be called -/

namespace OperatorFunctions

variable {o o' : OperatorFunctions} {t : Table Function} {arity name : String}
  {binary unary : Option Function}

/-- Operator functions that can all be called. -/
structure Callable (o : OperatorFunctions) : Prop where
  unary : ∀ e ∈ o.unary, e.2.isCallable = true
  binary : ∀ e ∈ o.binary, e.2.isCallable = true

theorem checkTable_eq_ok_iff : checkTable arity t = .ok () ↔ ∀ e ∈ t, e.2.isCallable = true := by
  induction t with
  | nil => exact ⟨fun _ => List.forall_mem_nil _, fun _ => rfl⟩
  | cons e t ih =>
    obtain ⟨op, f⟩ := e
    rw [checkTable, List.forall_mem_cons]
    by_cases hf : f.isCallable = true
    · rw [if_pos hf, ih]
      exact ⟨fun h => ⟨hf, h⟩, fun h => h.2⟩
    · rw [if_neg hf]
      exact ⟨fun h => absurd h (by simp), fun h => absurd h.1 hf⟩

theorem ofTables_eq_ok_iff {u b : Table Function} :
    (∃ o, ofTables u b = .ok o)
      ↔ (∀ e ∈ u, e.2.isCallable = true) ∧ ∀ e ∈ b, e.2.isCallable = true := by
  constructor
  · rintro ⟨o, h⟩
    obtain ⟨_, hu, h⟩ := exists_of_bind_eq_ok h
    obtain ⟨_, hb, -⟩ := exists_of_bind_eq_ok h
    exact ⟨checkTable_eq_ok_iff.1 hu, checkTable_eq_ok_iff.1 hb⟩
  · rintro ⟨hu, hb⟩
    unfold ofTables
    rw [checkTable_eq_ok_iff.2 hu, checkTable_eq_ok_iff.2 hb]
    exact ⟨_, rfl⟩

theorem callable_ofTables {u b : Table Function} (h : ofTables u b = .ok o) : o.Callable := by
  obtain ⟨hu, hb⟩ := ofTables_eq_ok_iff.1 ⟨o, h⟩
  rw [of_ofTables h]
  exact ⟨hu, hb⟩

theorem callable_tableOf {c : Contents} (h : tableOf arity c = .ok t) :
    ∀ e ∈ t, e.2.isCallable = true := by
  cases c with
  | functions fs =>
    rw [tableOf] at h
    obtain ⟨_, hcheck, h⟩ := exists_of_bind_eq_ok h
    rw [← Except.ok.inj h]
    exact checkTable_eq_ok_iff.1 hcheck
  | data es =>
    cases es with
    | nil =>
      rw [← Except.ok.inj h]
      exact List.forall_mem_nil _
    | cons e es => exact absurd h (by simp [tableOf])

theorem callable_direct {u b : Section} (h : direct u b = .ok o) : o.Callable := by
  obtain ⟨cu, -, h⟩ := exists_of_bind_eq_ok h
  obtain ⟨cb, -, h⟩ := exists_of_bind_eq_ok h
  obtain ⟨tu, htu, h⟩ := exists_of_bind_eq_ok h
  obtain ⟨tb, htb, h⟩ := exists_of_bind_eq_ok h
  rw [← Except.ok.inj h]
  exact ⟨callable_tableOf htu, callable_tableOf htb⟩

theorem callable_default : default.Callable := ⟨by decide, by decide⟩

/-- Operator functions that are read can be called. -/
theorem callable_ofSource {source : OperatorSource} (h : ofSource source = .ok o) :
    o.Callable := by
  cases source with
  | mapping entries => exact callable_direct h
  | tables u b => exact callable_ofTables h
  | datum d =>
    cases d with
    | none =>
      obtain rfl := Except.ok.inj h
      exact callable_default
    | dict entries => exact callable_direct h
    | bool | int | float | str | list => exact absurd h (by simp [ofSource])

/-- Functions that can all be called are joined by those that can. -/
theorem callable_withEntry_iff (ht : ∀ e ∈ t, e.2.isCallable = true) {f : Option Function} :
    (∀ e ∈ Session.withEntry t name f, e.2.isCallable = true) ↔ ∀ g ∈ f, g.isCallable = true := by
  cases f with
  | none => exact ⟨fun _ g hg => absurd hg (by simp), fun _ => ht⟩
  | some g =>
    constructor
    · intro h g' hg'
      obtain rfl := Option.some.inj hg'
      exact h (name, g) Table.mem_insert_self
    · intro h e he
      rcases Table.of_mem_insert he with rfl | he
      · exact h g rfl
      · exact ht e he

theorem Callable.extend_eq_ok_iff (h : o.Callable) :
    (∃ o', o.extend name binary unary = .ok o')
      ↔ (∀ f ∈ unary, f.isCallable = true) ∧ ∀ f ∈ binary, f.isCallable = true := by
  unfold extend
  rw [ofTables_eq_ok_iff, callable_withEntry_iff h.unary, callable_withEntry_iff h.binary]

end OperatorFunctions

/-- The operator functions of settings that are read can be called. -/
theorem Tables.callable_read {operators : Datum} {levels : Precedence.Source}
    {bindings : List (String × Value)} {operatorFunctions : OperatorSource}
    {functions : List (String × Function)} {t : Tables}
    (h : read operators levels bindings operatorFunctions functions = .ok t) :
    t.operatorFunctions.Callable :=
  OperatorFunctions.callable_ofSource (of_read h).2.2.1

/-- Steps bring in operator functions that can be called. -/
theorem Tables.callable_revise {s : Step} {a : Aim} {t t' : Tables} (ha : s.aim? = some a)
    (hr : s.revise t = .ok t') (h : t.operatorFunctions.Callable) :
    t'.operatorFunctions.Callable := by
  match s with
  | .setOperatorFunctions functions =>
    obtain ⟨o, ho, hr⟩ := exists_of_bind_eq_ok hr
    rw [← Except.ok.inj hr]
    exact OperatorFunctions.callable_ofSource ho
  | .reset .. => exact callable_read hr
  | .setOperators _ | .setPrecedence _ | .addFunction .. | .addFunctions (some _) |
    .setFunctions (some _) =>
    obtain ⟨_, -, hr⟩ := exists_of_bind_eq_ok hr
    rw [← Except.ok.inj hr]
    exact h
  | .addVariable .. | .addVariables (some _) | .setVariables (some _) =>
    rw [← Except.ok.inj hr]
    exact h
  | .removeVariable _ | .removeFunction _ =>
    rw [Step.revise] at hr
    split at hr
    · rw [← Except.ok.inj hr]
      exact h
    · exact absurd hr (by simp)
  | .addVariables none | .setVariables none | .addFunctions none | .setFunctions none =>
    exact absurd hr (by simp [Step.revise])
  | .solve _ | .tokenize _ | .parse .. | .parseText .. | .evaluate .. | .addOperator .. |
    .clearCaches | .snapshot | .invalid _ => exact absurd ha (by simp [Step.aim?])

/-- The operator functions in force can always be called. -/
theorem Engine.invariant_callable : Invariant fun e => e.tables.operatorFunctions.Callable :=
  invariant_tables Tables.callable_revise (fun _ _ _ _ h => h)
    fun ho _ => OperatorFunctions.callable_ofTables ho

/-! ## Refused operators -/

namespace Engine

variable {e : Engine} {operator binaryLevel unaryLevel : Datum} {binary unary : Option Function}
  {isRight : Bool} {f : Failure}

/-- An operator that is refused leaves no trace, or it stays announced because its functions cannot
be called. -/
theorem of_addOperator_eq_error (hrest : e.evaluating = none)
    (hcallable : e.tables.operatorFunctions.Callable)
    (h : (e.step (.addOperator operator binary binaryLevel unary unaryLevel isRight)).1.result
      = .error f) :
    (e.step (.addOperator operator binary binaryLevel unary unaryLevel isRight)).2 = e
      ∨ ∃ name, Session.accept operator binary binaryLevel unary unaryLevel = .ok name
        ∧ ¬ ((∀ g ∈ unary, g.isCallable = true) ∧ ∀ g ∈ binary, g.isCallable = true)
        ∧ (e.step (.addOperator operator binary binaryLevel unary unaryLevel isRight)).2
          = e.announce name (binary.map fun _ => binaryLevel) (unary.map fun _ => unaryLevel)
              isRight := by
  cases haccept : Session.accept operator binary binaryLevel unary unaryLevel with
  | error f =>
    left
    have hrun := Session.addOperator_refused haccept isRight ⟨e, []⟩
    rw [step_of_error (bind_of_eq_error hrun)]
    exact rest_eq_self hrest
  | ok name =>
    cases ho : e.tables.operatorFunctions.extend name binary unary with
    | error f' =>
      obtain ⟨events, -, hrun⟩ := Session.addOperator_announced haccept isRight (w := ⟨e, []⟩) ho
      refine Or.inr ⟨name, rfl, ?_, ?_⟩
      · intro hforms
        obtain ⟨o, ho'⟩ := hcallable.extend_eq_ok_iff.2 hforms
        rw [ho] at ho'
        exact absurd ho' (by simp)
      · rw [step_of_error (bind_of_eq_error hrun)]
        exact rest_eq_self hrest
    | ok o =>
      obtain ⟨events, -, hrun⟩ := Session.addOperator_added haccept isRight (w := ⟨e, []⟩) ho
      rw [step_of_ok (bind_of_eq_ok hrun)] at h
      exact absurd h (by simp)

variable {limits : Limits} {caching : Bool} {cacheSize operators : Datum}
  {levels : Precedence.Source} {bindings : List (String × Value)}
  {operatorFunctions : OperatorSource} {functions : List (String × Function)} {c : Change}

/-- On any engine that is made and used, an operator that is refused leaves no trace if its
functions can be called. In any case no trace is left but its word and its levels, and what was
remembered is forgotten. -/
theorem addOperator_failed (hc : create limits caching cacheSize operators levels bindings
    operatorFunctions functions = .ok c) (ss : List Step) {e e' : Engine}
    (he : e = (c.engine.steps ss).2) {report : Report}
    (h : e.step (.addOperator operator binary binaryLevel unary unaryLevel isRight) = (report, e'))
    (hfailed : report.result = .error f) :
    ((∀ g ∈ unary, g.isCallable = true) → (∀ g ∈ binary, g.isCallable = true) → e' = e)
      ∧ (e' = e ∨ ∃ name, Session.accept operator binary binaryLevel unary unaryLevel = .ok name
          ∧ e' = e.announce name (binary.map fun _ => binaryLevel) (unary.map fun _ => unaryLevel)
              isRight) := by
  have hrest : e.evaluating = none := by
    rw [he]
    exact evaluating_steps (of_create hc).2.1 ss
  have hcallable : e.tables.operatorFunctions.Callable := by
    rw [he]
    exact invariant_callable.steps (rooted_create hc) (Tables.callable_read (of_create hc).1) ss
  have hresult : (e.step (.addOperator operator binary binaryLevel unary unaryLevel
      isRight)).1.result = .error f := by rw [h, hfailed]
  have hcases := of_addOperator_eq_error hrest hcallable hresult
  rw [h] at hcases
  obtain hsame | ⟨name, haccept, hforms, hannounced⟩ := hcases
  · exact ⟨fun _ _ => hsame, Or.inl hsame⟩
  · exact ⟨fun hu hb => absurd ⟨hu, hb⟩ hforms, Or.inr ⟨name, haccept, hannounced⟩⟩

/-- The standard engine is asked to add a form of `+` that cannot be called. -/
theorem step_plus :
    ∃ c report, create {} true (.int 256) .none .standard [] (.datum .none) [] = .ok c
      ∧ c.engine.step (.addOperator (.str "+") (some (.inert (.int 5))) (.int 3) none .none false)
          = (report, c.engine.announce "+" (some (.int 3)) none false)
      ∧ report.result
          = .error (.fault (.operatorNotCallable "Binary" (Quoted.encode "+") "int")) := by
  obtain ⟨c, hc⟩ : ∃ c, create {} true (.int 256) .none .standard [] (.datum .none) [] = .ok c :=
    ⟨_, rfl⟩
  have hfunctions : c.engine.tables.operatorFunctions = .default := by
    rw [← Except.ok.inj hc]
    rfl
  have haccept : Session.accept (.str "+") (some (.inert (.int 5))) (.int 3) none .none = .ok "+" :=
    rfl
  have ho : c.engine.tables.operatorFunctions.extend "+" (some (.inert (.int 5))) none
      = .error (.operatorNotCallable "Binary" (Quoted.encode "+") "int") := by
    rw [hfunctions]
    rfl
  obtain ⟨events, -, hrun⟩ := Session.addOperator_announced haccept false (w := ⟨c.engine, []⟩) ho
  have hperform : Session.run (.addOperator (.str "+") (some (.inert (.int 5))) (.int 3) none .none
      false) ⟨c.engine, []⟩ = .error (.fault (.operatorNotCallable "Binary" (Quoted.encode "+")
        "int")) ⟨c.engine.announce "+" (some (.int 3)) none false, events⟩ :=
    bind_of_eq_error hrun
  have hrest : c.engine.evaluating = none := (of_create hc).2.1
  refine ⟨c, ⟨.error (.fault (.operatorNotCallable "Binary" (Quoted.encode "+") "int")), events⟩,
    hc, ?_, rfl⟩
  rw [step_of_error hperform, rest_eq_self (e := c.engine.announce "+" _ _ _) hrest]

theorem addOperator_failed_plus :
    ∃ c report, create {} true (.int 256) .none .standard [] (.datum .none) [] = .ok c
      ∧ c.engine.step (.addOperator (.str "+") (some (.inert (.int 5))) (.int 3) none .none false)
          = (report, c.engine.announce "+" (some (.int 3)) none false)
      ∧ (c.engine.announce "+" (some (.int 3)) none false = c.engine
        ∨ ∃ name, Session.accept (.str "+") (some (.inert (.int 5))) (.int 3) none .none = .ok name
          ∧ c.engine.announce "+" (some (.int 3)) none false
            = c.engine.announce name (some (.int 3)) none false) := by
  obtain ⟨c, report, hc, hstep, hfailed⟩ := step_plus
  exact ⟨c, report, hc, hstep, (addOperator_failed hc [] rfl hstep hfailed).2⟩

/-- The request fails, and yet the level of `+` is another one: sums now bind tighter than
products. -/
theorem addOperator_not_atomic :
    ∃ c report e', create {} true (.int 256) .none .standard [] (.datum .none) [] = .ok c
      ∧ c.engine.step (.addOperator (.str "+") (some (.inert (.int 5))) (.int 3) none .none false)
          = (report, e')
      ∧ report.result = .error (.fault (.operatorNotCallable "Binary" (Quoted.encode "+") "int"))
      ∧ c.engine.tables.precedence.binaryLevel "+" = some (.int 1)
      ∧ c.engine.tables.precedence.binaryLevel "*" = some (.int 2)
      ∧ e'.tables.precedence.binaryLevel "+" = some (.int 3)
      ∧ e'.tables.precedence.binaryLevel "*" = some (.int 2) := by
  obtain ⟨c, report, hc, hstep, hfailed⟩ := step_plus
  have hlevels : c.engine.tables.precedence = .default := by
    rw [← Except.ok.inj hc]
    rfl
  have hlevels' : (c.engine.announce "+" (some (.int 3)) none false).tables.precedence
      = Session.withLevels .default "+" (some (.int 3)) none false := by
    rw [announce_tables, Tables.announce, hlevels]
  refine ⟨c, report, _, hc, hstep, hfailed, ?_⟩
  rw [hlevels, hlevels']
  exact ⟨rfl, rfl, rfl, rfl⟩

end Engine

end Reckon
