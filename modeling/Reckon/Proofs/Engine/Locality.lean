import Reckon.Proofs.Engine.Located
import Reckon.Proofs.Expr.Coincidence
import Reckon.Proofs.Token.Foreign
/-
  Changes that have nothing to do with a text. What a text comes to depends on the operators that
  stand in it, on the variables that its tokens name and on the functions that it calls
  (`Tables.SameFor`). So a variable that the text does not mention, a function that it does not call
  and an operator that it does not hold may be changed (`Step.Aside`), and solving the text comes to
  what it came to before, be it a value or an error (`Engine.solve_aside`).
-/
namespace Reckon

/-! ## New operators -/

/-- A text is the same as no datum but itself. -/
theorem Datum.eq_of_same_str {text : String} {d : Datum} (h : Datum.same (.str text) d = true) :
    d = .str text := by
  cases d with
  | str other =>
    have heq : (text == other) = true := h
    rw [beq_iff_eq.1 heq]
  | none | bool | int | float | list | dict =>
    exact absurd h (by simp [Datum.same, Datum.sameScalar, Datum.scalar?])

namespace Session

variable {name op : String}

theorem any_withAssociativity (right : List Datum) (isRight : Bool) (h : name ≠ op) :
    (withAssociativity right name isRight).any (Datum.same (.str op))
      = right.any (Datum.same (.str op)) := by
  have hother : Datum.same (.str op) (.str name) = false := by
    refine Bool.eq_false_iff.2 fun hsame => ?_
    exact h (Datum.str.inj (Datum.eq_of_same_str hsame))
  have hothers : (right.filter fun d => !Datum.same d (.str name)).any (Datum.same (.str op))
      = right.any (Datum.same (.str op)) := by
    rw [List.any_filter]
    congr 1
    funext d
    cases hd : Datum.same (.str op) d with
    | false => exact Bool.and_false _
    | true => rw [Datum.eq_of_same_str hd, hother]; rfl
  unfold withAssociativity
  cases isRight with
  | false => exact hothers
  | true =>
    rw [if_pos rfl, List.any_append, hothers, List.any_cons, hother]
    simp

/-- A new operator leaves the levels of the others alone. -/
theorem sameAt_withLevels (p : Precedence) (binary unary : Option Level) (isRight : Bool)
    (h : name ≠ op) : p.SameAt (withLevels p name binary unary isRight) op where
  unary := by
    cases unary with
    | none => rfl
    | some level => exact Precedence.levelIn_insert level h
  binary := by
    cases binary with
    | none => rfl
    | some level => exact Precedence.levelIn_insert level h
  right := by
    cases binary with
    | none => rfl
    | some level => exact any_withAssociativity p.rightAssociative isRight h

theorem mem_withOperator {ops : List String} (h : name ≠ op) :
    op ∈ withOperator ops name ↔ op ∈ ops := by
  unfold withOperator
  split
  · exact Iff.rfl
  · rw [List.mem_append, List.mem_singleton]
    exact or_iff_left h.symm

theorem find?_withEntry (t : Table Function) (f : Option Function) (h : name ≠ op) :
    (withEntry t name f).find? op = t.find? op := by
  cases f with
  | none => rfl
  | some f =>
    unfold withEntry
    rw [Table.find?_insert, if_neg h]

end Session

/-! ## Settings that a text looks at -/

/-- The function that a node calls. -/
def Expr.callee? : Expr → Option String
  | .call name _ _ => some name
  | _ => none

namespace Engine

/-- The names of the identifiers among the tokens of a text. -/
def names (e : Engine) (text : String) : List String :=
  match e.freshTokens text with
  | .ok ts => (ts.filter (·.kind == .identifier)).map (·.text)
  | .error _ => []

/-- The names of the functions that are called in the tree of a text. -/
def callees (e : Engine) (text : String) : List String :=
  match e.freshTree text with
  | .ok tree => tree.nodes.filterMap Expr.callee?
  | .error _ => []

variable {e : Engine} {text : String}

theorem mem_names {ts : List Token} (hts : e.freshTokens text = .ok ts) {t : Token} (ht : t ∈ ts)
    (hkind : t.kind = .identifier) : t.text ∈ e.names text := by
  unfold names
  rw [hts]
  exact List.mem_map_of_mem (List.mem_filter.2 ⟨ht, beq_iff_eq.2 hkind⟩)

theorem mem_callees {tree : Expr} (htree : e.freshTree text = .ok tree) {name : String}
    {args : List Expr} {position : Int} (h : .call name args position ∈ tree.nodes) :
    name ∈ e.callees text := by
  unfold callees
  rw [htree]
  exact List.mem_filterMap.2 ⟨_, h, rfl⟩

end Engine

/-- A word stands somewhere in a text. -/
def OccursIn (op text : String) : Prop := op.toList <:+: text.toList

/-- Settings that are those of an engine as far as a text looks at them. -/
structure Tables.SameFor (e : Engine) (text : String) (t : Tables) : Prop where
  operators : ∀ op, OccursIn op text → (op ∈ t.operators ↔ op ∈ e.tables.operators)
  precedence : ∀ op, OccursIn op text → e.tables.precedence.SameAt t.precedence op
  unary : ∀ op, OccursIn op text →
    t.operatorFunctions.unary.find? op = e.tables.operatorFunctions.unary.find? op
  binary : ∀ op, OccursIn op text →
    t.operatorFunctions.binary.find? op = e.tables.operatorFunctions.binary.find? op
  bindings : ∀ name ∈ e.names text, t.bindings.find? name = e.tables.bindings.find? name
  functions : ∀ name ∈ e.callees text, t.functions.find? name = e.tables.functions.find? name

namespace Tables

theorem sameFor_self (e : Engine) (text : String) : SameFor e text e.tables where
  operators _ _ := Iff.rfl
  precedence _ _ := ⟨rfl, rfl, rfl⟩
  unary _ _ := rfl
  binary _ _ := rfl
  bindings _ _ := rfl
  functions _ _ := rfl

namespace SameFor

variable {e : Engine} {text : String} {t : Tables} {name : String}

theorem setBindings (ht : t.SameFor e text) {bindings : Table Value}
    (h : ∀ name ∈ e.names text, bindings.find? name = e.tables.bindings.find? name) :
    SameFor e text { t with bindings } := { ht with bindings := h }

theorem setFunctions (ht : t.SameFor e text) {functions : Table Function}
    (h : ∀ name ∈ e.callees text, functions.find? name = e.tables.functions.find? name) :
    SameFor e text { t with functions } := { ht with functions := h }

/-- An operator that does not stand in the text is made known. -/
theorem announce (ht : t.SameFor e text) (h : ¬ OccursIn name text) (binary unary : Option Level)
    (isRight : Bool) : SameFor e text (t.announce name binary unary isRight) :=
  have hne : ∀ op, OccursIn op text → name ≠ op := fun _ hop heq => h (heq ▸ hop)
  { ht with
    operators := fun op hop => (Session.mem_withOperator (hne op hop)).trans (ht.operators op hop)
    precedence := fun op hop => (ht.precedence op hop).trans
      (Session.sameAt_withLevels t.precedence binary unary isRight (hne op hop)) }

/-- An operator that does not stand in the text gets functions. -/
theorem extend (ht : t.SameFor e text) (h : ¬ OccursIn name text) {binary unary : Option Function}
    {o : OperatorFunctions} (ho : t.operatorFunctions.extend name binary unary = .ok o) :
    SameFor e text { t with operatorFunctions := o } := by
  have hne : ∀ op, OccursIn op text → name ≠ op := fun _ hop heq => h (heq ▸ hop)
  rw [OperatorFunctions.of_ofTables ho]
  exact { ht with
    unary := fun op hop => (Session.find?_withEntry _ unary (hne op hop)).trans (ht.unary op hop)
    binary := fun op hop =>
      (Session.find?_withEntry _ binary (hne op hop)).trans (ht.binary op hop) }

end SameFor

end Tables

theorem Token.StandsIn.occursIn {t : Token} {text : String} (h : t.StandsIn text) :
    OccursIn t.text text := by
  obtain ⟨before, after, htext, -⟩ := h
  refine ⟨before, after, ?_⟩
  rw [htext, List.append_assoc]

namespace Engine

variable {e e' : Engine} {text : String}

/-- The nodes of a text's tree find the same in settings that are the same as far as the text looks
at them. -/
theorem sameIn_of_sameFor (htrie : e.trie = .ofList e.tables.operators) {t : Tables}
    (h : t.SameFor e text) {tree y : Expr} (htree : e.freshTree text = .ok tree)
    (hy : y ∈ tree.nodes) {source : Option String} : y.SameIn
      ⟨e.tables.bindings, e.tables.operatorFunctions, e.tables.functions, source⟩
      ⟨t.bindings, t.operatorFunctions, t.functions, source⟩ := by
  obtain ⟨ts, htokens, hparse⟩ := exists_of_bind_eq_ok htree
  obtain ⟨token, hmem, htoken, hstands⟩ := token_of_node htrie htokens hparse hy
  cases y with
  | constant | unknown => exact trivial
  | var name position =>
    rw [← Option.some.inj htoken] at hmem
    exact h.bindings name (mem_names htokens hmem rfl)
  | unary op x position =>
    rw [← Option.some.inj htoken] at hstands
    exact h.unary op hstands.occursIn
  | binary op l r position =>
    rw [← Option.some.inj htoken] at hstands
    exact h.binary op hstands.occursIn
  | call name args position =>
    have hfind := h.functions name (mem_callees htree hy)
    show Scope.function? _ name = Scope.function? _ name
    unfold Scope.function?
    rw [hfind]

/-- A text comes to the same with settings that are the same as far as it looks at them. -/
theorem freshSolution_of_sameFor (htrie : e.trie = .ofList e.tables.operators)
    (htrie' : e'.trie = .ofList e'.tables.operators) (hlimits : e'.limits = e.limits)
    (h : e'.tables.SameFor e text) : e'.freshSolution text = e.freshSolution text := by
  have htokens : e'.freshTokens text = e.freshTokens text := by
    unfold freshTokens
    rw [htrie, htrie', hlimits]
    exact Token.ofText_of_foreign h.operators e.limits
  have hstands : ∀ ts, e.freshTokens text = .ok ts → ∀ t ∈ ts, OccursIn t.text text :=
    fun ts hts t ht => ((cover_of_freshTokens htrie hts).standsIn ht).occursIn
  have hparse : ∀ ts, e.freshTokens text = .ok ts →
      e'.freshParse ts (some text) = e.freshParse ts (some text) := by
    intro ts hts
    unfold freshParse
    rw [hlimits, Parser.parse_congr fun t ht _ => h.precedence t.text (hstands ts hts t ht)]
  have htree : e'.freshTree text = e.freshTree text := by
    unfold freshTree
    rw [htokens]
    cases hts : e.freshTokens text with
    | error f => rfl
    | ok ts => exact hparse ts hts
  unfold freshSolution
  rw [htree]
  cases hexpr : e.freshTree text with
  | error f => rfl
  | ok tree =>
    have hnodes : ∀ y ∈ tree.nodes, y.SameIn
        ⟨e.tables.bindings, e.tables.operatorFunctions, e.tables.functions, some text⟩
        ⟨e'.tables.bindings, e'.tables.operatorFunctions, e'.tables.functions, some text⟩ :=
      fun y hy => sameIn_of_sameFor htrie h hexpr hy
    exact congrArg Traced.result (Expr.evaluate_congr rfl hnodes)

end Engine

/-! ## Steps aside -/

theorem Table.find?_insertAll_of_ne {α : Type} {t : Table α} {entries : List (String × α)}
    {name : String} (h : ∀ entry ∈ entries, entry.1 ≠ name) :
    (t.insertAll entries).find? name = t.find? name := by
  induction entries generalizing t with
  | nil => rfl
  | cons entry entries ih =>
    have hbehind := ih (t := t.insert entry.1 entry.2) fun x hx => h x (List.mem_cons_of_mem _ hx)
    refine hbehind.trans ?_
    rw [find?_insert, if_neg (h entry (List.mem_cons_self ..))]

/-- A step that changes settings that have nothing to do with a text: variables that it does not
mention, functions that it does not call, an operator that it does not hold. Where a whole table is
replaced, the names that do matter stand for the same as before. -/
inductive Step.Aside (e : Engine) (text : String) : Step → Prop
  | addVariable {name : String} (value : Value) (h : name ∉ e.names text) :
    Aside e text (.addVariable name value)
  | addVariables {entries : List (String × Value)}
    (h : ∀ entry ∈ entries, entry.1 ∉ e.names text) : Aside e text (.addVariables (some entries))
  | setVariables {entries : List (String × Value)}
    (h : ∀ name ∈ e.names text,
      (Table.ofEntries entries).find? name = e.tables.bindings.find? name) :
    Aside e text (.setVariables (some entries))
  | removeVariable {name : String} (h : name ∉ e.names text) : Aside e text (.removeVariable name)
  | addFunction {name : String} (f : Function) (h : name ∉ e.callees text) :
    Aside e text (.addFunction name f)
  | addFunctions {entries : List (String × Function)}
    (h : ∀ entry ∈ entries, entry.1 ∉ e.callees text) : Aside e text (.addFunctions (some entries))
  | setFunctions {entries : List (String × Function)}
    (h : ∀ name ∈ e.callees text,
      (Table.ofEntries entries).find? name = e.tables.functions.find? name) :
    Aside e text (.setFunctions (some entries))
  | removeFunction {name : String} (h : name ∉ e.callees text) : Aside e text (.removeFunction name)
  | addOperator {op : String} (h : ¬ OccursIn op text) (binary : Option Function)
    (binaryLevel : Datum) (unary : Option Function) (unaryLevel : Datum) (isRight : Bool) :
    Aside e text (.addOperator (.str op) binary binaryLevel unary unaryLevel isRight)

namespace Step.Aside

variable {e : Engine} {text : String} {s : Step} {t t' : Tables}

/-- A step aside revises nothing that the text looks at. -/
theorem sameFor_of_revise (h : s.Aside e text) {a : Aim} (ha : s.aim? = some a)
    (hr : s.revise t = .ok t') (ht : t.SameFor e text) : t'.SameFor e text := by
  cases h with
  | addVariable _ h =>
    rw [← Except.ok.inj hr]
    refine ht.setBindings fun other hother => ?_
    rw [Table.find?_insert, if_neg (ne_of_mem_of_not_mem hother h).symm, ht.bindings other hother]
  | @addVariables entries h =>
    rw [← Except.ok.inj hr]
    refine ht.setBindings fun other hother => ?_
    have hne : ∀ entry ∈ entries, entry.1 ≠ other := fun entry hentry =>
      (ne_of_mem_of_not_mem hother (h entry hentry)).symm
    rw [Table.find?_insertAll_of_ne hne, ht.bindings other hother]
  | setVariables h =>
    rw [← Except.ok.inj hr]
    exact ht.setBindings h
  | removeVariable h =>
    rw [Step.revise] at hr
    split at hr
    · rw [← Except.ok.inj hr]
      refine ht.setBindings fun other hother => ?_
      rw [Table.find?_erase, if_neg (ne_of_mem_of_not_mem hother h).symm, ht.bindings other hother]
    · exact absurd hr (by simp)
  | addFunction _ h =>
    obtain ⟨_, -, hr⟩ := exists_of_bind_eq_ok hr
    rw [← Except.ok.inj hr]
    refine ht.setFunctions fun other hother => ?_
    rw [Table.find?_insert, if_neg (ne_of_mem_of_not_mem hother h).symm, ht.functions other hother]
  | @addFunctions entries h =>
    obtain ⟨_, -, hr⟩ := exists_of_bind_eq_ok hr
    rw [← Except.ok.inj hr]
    refine ht.setFunctions fun other hother => ?_
    have hne : ∀ entry ∈ entries, entry.1 ≠ other := fun entry hentry =>
      (ne_of_mem_of_not_mem hother (h entry hentry)).symm
    rw [Table.find?_insertAll_of_ne hne, ht.functions other hother]
  | setFunctions h =>
    obtain ⟨_, -, hr⟩ := exists_of_bind_eq_ok hr
    rw [← Except.ok.inj hr]
    exact ht.setFunctions h
  | removeFunction h =>
    rw [Step.revise] at hr
    split at hr
    · rw [← Except.ok.inj hr]
      refine ht.setFunctions fun other hother => ?_
      rw [Table.find?_erase, if_neg (ne_of_mem_of_not_mem hother h).symm, ht.functions other hother]
    · exact absurd hr (by simp)
  | addOperator => exact absurd ha (by simp [Step.aim?])

/-- The word of a new operator that is accepted does not stand in the text. -/
theorem not_occursIn {operator : Datum} {binary unary : Option Function}
    {binaryLevel unaryLevel : Datum} {isRight : Bool} {name : String}
    (h : (Step.addOperator operator binary binaryLevel unary unaryLevel isRight).Aside e text)
    (haccept : Session.accept operator binary binaryLevel unary unaryLevel = .ok name) :
    ¬ OccursIn name text := by
  cases h with
  | addOperator h =>
    obtain ⟨_, -, hname⟩ := exists_of_bind_eq_ok haccept
    obtain rfl := Datum.str.inj (Datum.of_operator hname)
    exact h

/-- Whatever a step aside comes to, it changes nothing that the text looks at. -/
theorem sameFor_of_alters (h : s.Aside e text) (halters : s.Alters t t')
    (ht : t.SameFor e text) : t'.SameFor e text := by
  cases halters with
  | same => exact ht
  | revise ha hr => exact h.sameFor_of_revise ha hr ht
  | announce haccept isRight => exact ht.announce (h.not_occursIn haccept) _ _ isRight
  | extend haccept isRight ho =>
    have hforeign := h.not_occursIn haccept
    exact (ht.announce hforeign _ _ isRight).extend hforeign ho

end Step.Aside

namespace Engine

/-- The limits of an engine are given once. -/
theorem invariant_limits (limits : Limits) : Invariant fun e => e.limits = limits where
  move := by
    intro w w' hmove h
    cases hmove with
    | build hbuilt => exact hbuilt.same.limits.trans h
    | begin | reuse | remember | forget | announce | extend => exact h
    | revise _ _ hchanged => exact hchanged.limits.trans h
  rest h := h

variable {e : Engine} {text : String}

/-- A step that answers with a value answers what its use comes to, and leaves the settings. -/
theorem step_of_lands {s : Step} {m : Run Value} {r : Except Failure Value}
    (hs : Session.run s = m >>= fun v => pure (.value v))
    (hm : Session.Lands Engine.Answered m ⟨e, []⟩ r) :
    (e.step s).1.result = r.map Answer.value ∧ (e.step s).2.SameSettings e := by
  obtain ⟨w, hanswered, -, hrun⟩ := hm
  have hsame : w.engine.rest.SameSettings e :=
    ⟨hanswered.same.limits, hanswered.same.tables, hanswered.same.trie⟩
  have hstep : Session.run s ⟨e, []⟩ = (m >>= fun v => pure (.value v)) ⟨e, []⟩ := by rw [hs]
  cases r with
  | ok v =>
    rw [step_of_ok (hstep.trans (bind_of_eq_ok hrun))]
    exact ⟨rfl, hsame⟩
  | error f =>
    rw [step_of_error (hstep.trans (bind_of_eq_error hrun))]
    exact ⟨rfl, hsame⟩

/-- Solving a text on a sound engine comes to its fresh solution, whatever is remembered, and leaves
the settings. -/
theorem Sound.step_solve (h : e.Sound) (text : String) :
    (e.step (.solve (.str text))).1.result = (e.freshSolution text).map Answer.value
      ∧ (e.step (.solve (.str text))).2.SameSettings e :=
  step_of_lands rfl
    (Session.solve_lands (w := ⟨e, []⟩) h.faithful h.quiet Session.maxNesting text)

theorem Sound.solve_result (h : e.Sound) (text : String) :
    (e.step (.solve (.str text))).1.result = (e.freshSolution text).map Answer.value :=
  (h.step_solve text).1

/-- Steps aside leave the fresh solution of the text alone. -/
theorem Sound.freshSolution_steps (h : e.Sound) (hrooted : e.Rooted)
    (htrie : e.trie = .ofList e.tables.operators) {ss : List Step}
    (hbrings : ∀ s ∈ ss, s.Brings Function.Quiet) (haside : ∀ s ∈ ss, s.Aside e text) :
    (e.steps ss).2.freshSolution text = e.freshSolution text := by
  have hsame := (steps_tables hrooted h.quiet (Tables.sameFor_self e text) hbrings
    fun s hs _ _ halters ht => (haside s hs).sameFor_of_alters halters ht).2
  exact freshSolution_of_sameFor htrie (invariant_trie.steps hrooted htrie ss)
    ((invariant_limits e.limits).steps hrooted rfl ss) hsame

variable {limits : Limits} {caching : Bool} {cacheSize operators : Datum}
  {levels : Precedence.Source} {bindings : List (String × Value)}
  {operatorFunctions : OperatorSource} {functions : List (String × Function)} {c : Change}

/-- On any engine that is made and used with quiet functions, changes that have nothing to do with a
text leave what solving it comes to exactly as it was: the value, or the failure with all that it
says. -/
theorem solve_aside (ho : operatorFunctions.Every Function.Quiet)
    (hf : ∀ entry ∈ functions, entry.2.Quiet)
    (hc : create limits caching cacheSize operators levels bindings operatorFunctions functions
      = .ok c) {ss : List Step} (hss : ∀ s ∈ ss, s.Brings Function.Quiet) {e : Engine}
    (he : e = (c.engine.steps ss).2) {text : String} {later : List Step}
    (hlater : ∀ s ∈ later, s.Brings Function.Quiet ∧ s.Aside e text) :
    ((e.steps later).2.step (.solve (.str text))).1.result
      = (e.step (.solve (.str text))).1.result := by
  have hrooted := invariant_rooted.steps (rooted_create hc) (rooted_create hc) ss
  have htrie := invariant_trie.steps (rooted_create hc) (trie_create hc) ss
  have hsound := (sound_create hc ho hf).steps hss
  rw [← he] at hrooted htrie hsound
  have hbrings : ∀ s ∈ later, s.Brings Function.Quiet := fun s hs => (hlater s hs).1
  rw [(hsound.steps hbrings).solve_result, hsound.solve_result,
    hsound.freshSolution_steps hrooted htrie hbrings fun s hs => (hlater s hs).2]

/-- A variable, functions and an operator that begins like one of the text, which is remembered. -/
theorem solve_aside_minus :
    ∃ c e, create {} true (.int 4) .none .standard [("x", .int 3)] (.datum .none)
        [("f", .record "f")] = .ok c
      ∧ e = (c.engine.steps [.solve (.str "abs(x) - 2")]).2
      ∧ ((e.steps [.addVariable "y" (.int 1), .removeFunction "f", .addFunction "max" (.record "g"),
            .addOperator (.str "--") (some (.record "h")) (.int 3) none .none false]).2.step
          (.solve (.str "abs(x) - 2"))).1.result
        = (e.step (.solve (.str "abs(x) - 2"))).1.result := by
  obtain ⟨c, hc⟩ : ∃ c, create {} true (.int 4) .none .standard [("x", .int 3)] (.datum .none)
      [("f", .record "f")] = .ok c := ⟨_, rfl⟩
  obtain ⟨e, he⟩ : ∃ e, e = (c.engine.steps [.solve (.str "abs(x) - 2")]).2 := ⟨_, rfl⟩
  have hengine := (Except.ok.inj hc).symm
  have hnames : e.names "abs(x) - 2" = ["abs", "x"] := by
    rw [he, hengine]
    decide +kernel
  have hcallees : e.callees "abs(x) - 2" = ["abs"] := by
    rw [he, hengine]
    decide +kernel
  have hdefault : OperatorSource.Every Function.Quiet (.datum .none) := trivial
  have hrecord : ∀ entry ∈ [("f", Function.record "f")], entry.2.Quiet := by
    intro entry hentry
    rw [List.mem_singleton.1 hentry]
    exact trivial
  have hbefore : ∀ s ∈ [Step.solve (.str "abs(x) - 2")], s.Brings Function.Quiet := by
    intro s hs
    rw [List.mem_singleton.1 hs]
    exact trivial
  have hlater : ∀ s ∈ [Step.addVariable "y" (.int 1), .removeFunction "f",
      .addFunction "max" (.record "g"),
      .addOperator (.str "--") (some (.record "h")) (.int 3) none .none false],
      s.Brings Function.Quiet ∧ s.Aside e "abs(x) - 2" := by
    refine List.forall_mem_cons.2 ⟨⟨trivial, .addVariable _ ?_⟩, ?_⟩
    · rw [hnames]
      decide
    refine List.forall_mem_cons.2 ⟨⟨trivial, .removeFunction ?_⟩, ?_⟩
    · rw [hcallees]
      decide
    refine List.forall_mem_cons.2 ⟨⟨trivial, .addFunction _ ?_⟩, ?_⟩
    · rw [hcallees]
      decide
    refine List.forall_mem_singleton.2 ⟨⟨?_, by simp⟩, .addOperator ?_ ..⟩
    · intro f hf
      rw [← Option.some.inj hf]
      exact trivial
    · unfold OccursIn
      decide +kernel
  exact ⟨c, e, hc, he, solve_aside hdefault hrecord hc hbefore he hlater⟩

end Engine

end Reckon
