import Reckon.Proofs.Engine.Atomicity
import Reckon.Proofs.Expr.Agreement
/-
  Where functions come from. The functions that an evaluation may call are built in, or a step has
  brought them in. So what holds of all functions that are brought in, and of those that depend on
  their arguments alone, holds of all functions in force: it holds of settings that are read
  (`Tables.every_read`), and every change of settings keeps it (`Tables.Every.revise`,
  `OperatorFunctions.Every.extend`). A new engine has settings that are read
  (`Engine.create_eq_ok_iff`).
-/
namespace Reckon

/-! ## Functions as they are given -/

/-- A section whose functions all have a property. -/
def Section.Every (P : Function → Prop) : Section → Prop
  | .datum _ => True
  | .table entries => ∀ e ∈ entries, P e.2

/-- Operator functions that all have a property, as they are given. -/
def OperatorSource.Every (P : Function → Prop) : OperatorSource → Prop
  | .datum _ => True
  | .mapping entries => ∀ e ∈ entries, e.2.Every P
  | .tables unary binary => (∀ e ∈ unary, P e.2) ∧ ∀ e ∈ binary, P e.2

/-- A step all of whose functions have a property. -/
def Step.Brings (P : Function → Prop) : Step → Prop
  | .setOperatorFunctions functions => functions.Every P
  | .addOperator _ binary _ unary _ _ => (∀ f ∈ binary, P f) ∧ ∀ f ∈ unary, P f
  | .addFunction _ function => P function
  | .addFunctions functions => ∀ fs ∈ functions, ∀ e ∈ fs, P e.2
  | .setFunctions functions => ∀ fs ∈ functions, ∀ e ∈ fs, P e.2
  | .reset _ _ _ operatorFunctions functions => operatorFunctions.Every P ∧ ∀ e ∈ functions, P e.2
  | _ => True

/-! ## Tables -/

variable {P : Function → Prop}

namespace Table

/-- A table whose functions all have a property. -/
def Every (P : Function → Prop) (t : Table Function) : Prop :=
  ∀ name f, t.find? name = some f → P f

theorem every_of_mem {t : Table Function} (h : ∀ e ∈ t, P e.2) : Every P t :=
  fun _ _ hf => h _ (mem_of_find? hf)

theorem every_nil : Every P [] := every_of_mem (List.forall_mem_nil _)

namespace Every

variable {t : Table Function}

theorem insert (h : Every P t) (name : String) {f : Function} (hf : P f) :
    Every P (t.insert name f) := by
  intro other g hg
  rw [find?_insert] at hg
  by_cases hname : name = other
  · rw [if_pos hname] at hg
    rw [← Option.some.inj hg]
    exact hf
  · rw [if_neg hname] at hg
    exact h other g hg

theorem insertAll {entries : List (String × Function)} (h : Every P t)
    (hentries : ∀ e ∈ entries, P e.2) : Every P (t.insertAll entries) := by
  induction entries generalizing t with
  | nil => exact h
  | cons e entries ih =>
    exact ih (h.insert e.1 (hentries e (List.mem_cons_self ..)))
      fun x hx => hentries x (List.mem_cons_of_mem _ hx)

theorem erase (h : Every P t) (name : String) : Every P (t.erase name) := by
  intro other g hg
  rw [find?_erase] at hg
  by_cases hname : name = other
  · rw [if_pos hname] at hg
    exact absurd hg (by simp)
  · rw [if_neg hname] at hg
    exact h other g hg

theorem withEntry (h : Every P t) (name : String) {f : Option Function} (hf : ∀ g ∈ f, P g) :
    Every P (Session.withEntry t name f) := by
  cases f with
  | none => exact h
  | some g => exact h.insert name (hf g rfl)

end Every

theorem every_ofEntries {entries : List (String × Function)} (h : ∀ e ∈ entries, P e.2) :
    Every P (ofEntries entries) := every_nil.insertAll h

end Table

/-! ## Operator functions -/

namespace OperatorFunctions

/-- Operator functions that all have a property. -/
structure Every (P : Function → Prop) (o : OperatorFunctions) : Prop where
  unary : Table.Every P o.unary
  binary : Table.Every P o.binary

theorem every_default (hP : ∀ run, P (.native run)) : default.Every P := by
  refine ⟨Table.every_of_mem fun e he => ?_, Table.every_of_mem fun e he => ?_⟩
  · obtain rfl := List.mem_singleton.1 he
    exact hP _
  · simp only [default, List.mem_cons, List.not_mem_nil, or_false] at he
    rcases he with rfl | rfl | rfl | rfl | rfl | rfl
    all_goals exact hP _

/-- The contents of a section whose functions all have a property. -/
def Contents.Every (P : Function → Prop) : Contents → Prop
  | .functions t => Table.Every P t
  | .data _ => True

theorem every_contents {s : Section} (h : s.Every P) {c : Contents} (hc : contents s = .ok c) :
    c.Every P := by
  cases s with
  | table entries =>
    obtain rfl := Except.ok.inj hc
    exact Table.every_ofEntries h
  | datum d =>
    obtain ⟨es, -, rfl⟩ := exists_of_map_eq_ok (show d.entries.map .data = .ok c from hc)
    exact trivial

theorem every_tableOf {arity : String} {c : Contents} (h : c.Every P) {t : Table Function}
    (ht : tableOf arity c = .ok t) : Table.Every P t := by
  cases c with
  | functions t' =>
    rw [tableOf] at ht
    obtain ⟨_, -, ht⟩ := exists_of_bind_eq_ok ht
    rw [← Except.ok.inj ht]
    exact h
  | data es =>
    cases es with
    | nil =>
      obtain rfl := Except.ok.inj ht
      exact Table.every_nil
    | cons e es => exact absurd ht (by simp [tableOf])

theorem of_ofTables {unary binary : Table Function} {o : OperatorFunctions}
    (h : ofTables unary binary = .ok o) : o = ⟨unary, binary⟩ := by
  unfold ofTables at h
  obtain ⟨_, -, h⟩ := exists_of_bind_eq_ok h
  obtain ⟨_, -, h⟩ := exists_of_bind_eq_ok h
  exact (Except.ok.inj h).symm

theorem every_direct {u b : Section} (hu : u.Every P) (hb : b.Every P) {o : OperatorFunctions}
    (h : direct u b = .ok o) : o.Every P := by
  unfold direct at h
  obtain ⟨cu, hcu, h⟩ := exists_of_bind_eq_ok h
  obtain ⟨cb, hcb, h⟩ := exists_of_bind_eq_ok h
  obtain ⟨tu, htu, h⟩ := exists_of_bind_eq_ok h
  obtain ⟨tb, htb, h⟩ := exists_of_bind_eq_ok h
  rw [← Except.ok.inj h]
  exact ⟨every_tableOf (every_contents hu hcu) htu, every_tableOf (every_contents hb hcb) htb⟩

theorem every_sectionOf (keys : List String) {entries : List (String × Section)}
    (h : ∀ e ∈ entries, e.2.Every P) : (sectionOf keys entries).Every P := by
  unfold sectionOf
  cases hs : (keys.filterMap fun k => entries.lookup k).head? with
  | none => exact trivial
  | some s =>
    obtain ⟨k, -, hk⟩ := List.mem_filterMap.1 (List.mem_of_mem_head? hs)
    obtain ⟨l₁, l₂, rfl, -⟩ := List.lookup_eq_some_iff.1 hk
    exact h (k, s) (List.mem_append_right _ (List.mem_cons_self ..))

theorem every_ofMapping {entries : List (String × Section)} (h : ∀ e ∈ entries, e.2.Every P)
    {o : OperatorFunctions} (ho : ofMapping entries = .ok o) : o.Every P :=
  every_direct (every_sectionOf _ h) (every_sectionOf _ h) ho

/-- What holds of operator functions as they are given holds of them as they are read. -/
theorem every_ofSource (hP : ∀ run, P (.native run)) {source : OperatorSource} (h : source.Every P)
    {o : OperatorFunctions} (ho : ofSource source = .ok o) : o.Every P := by
  cases source with
  | mapping entries => exact every_ofMapping h ho
  | tables unary binary =>
    rw [of_ofTables ho]
    exact ⟨Table.every_of_mem h.1, Table.every_of_mem h.2⟩
  | datum d =>
    cases d with
    | none =>
      obtain rfl := Except.ok.inj ho
      exact every_default hP
    | dict entries =>
      refine every_ofMapping (fun e he => ?_) ho
      obtain ⟨x, -, rfl⟩ := List.mem_map.1 he
      exact trivial
    | bool | int | float | str | list => exact absurd ho (by simp [ofSource])

theorem Every.extend {o o' : OperatorFunctions} (h : o.Every P) {name : String}
    {binary unary : Option Function} (hb : ∀ f ∈ binary, P f) (hu : ∀ f ∈ unary, P f)
    (ho : o.extend name binary unary = .ok o') : o'.Every P := by
  rw [of_ofTables ho]
  exact ⟨h.unary.withEntry name hu, h.binary.withEntry name hb⟩

end OperatorFunctions

/-! ## Settings -/

/-- A function that is found under a name stands in the table, or is built in. -/
theorem Scope.of_function {s : Scope} {name : String} {f : Function}
    (h : s.function? name = some f) :
    s.functions.find? name = some f ∨ ∃ b, f = Builtin.function b := by
  unfold Scope.function? at h
  cases hfind : s.functions.find? name with
  | some g =>
    rw [hfind] at h
    exact Or.inl h
  | none =>
    rw [hfind] at h
    obtain ⟨b, -, rfl⟩ := Option.map_eq_some_iff.1 h
    exact Or.inr ⟨b, rfl⟩

namespace Tables

/-- Settings whose functions all have a property. -/
structure Every (P : Function → Prop) (t : Tables) : Prop where
  operatorFunctions : t.operatorFunctions.Every P
  functions : Table.Every P t.functions

/-- Settings that are read come from what they are read from, part by part. -/
theorem of_read {operators : Datum} {levels : Precedence.Source}
    {bindings : List (String × Value)} {operatorFunctions : OperatorSource}
    {functions : List (String × Function)} {t : Tables}
    (h : read operators levels bindings operatorFunctions functions = .ok t) :
    (∃ items, Datum.operators? items = .ok t.operators)
      ∧ Precedence.ofSource levels = .ok t.precedence
      ∧ OperatorFunctions.ofSource operatorFunctions = .ok t.operatorFunctions
      ∧ t.functions = .ofEntries functions := by
  unfold read at h
  obtain ⟨items, -, h⟩ := exists_of_bind_eq_ok h
  obtain ⟨precedence, hprecedence, h⟩ := exists_of_bind_eq_ok h
  obtain ⟨o, ho, h⟩ := exists_of_bind_eq_ok h
  obtain ⟨_, -, h⟩ := exists_of_bind_eq_ok h
  obtain ⟨ops, hops, h⟩ := exists_of_bind_eq_ok h
  rw [← Except.ok.inj h]
  exact ⟨⟨items, hops⟩, hprecedence, ho, rfl⟩

theorem every_read (hP : ∀ run, P (.native run)) {operators : Datum} {levels : Precedence.Source}
    {bindings : List (String × Value)} {operatorFunctions : OperatorSource}
    {functions : List (String × Function)} (ho : operatorFunctions.Every P)
    (hf : ∀ e ∈ functions, P e.2) {t : Tables}
    (h : read operators levels bindings operatorFunctions functions = .ok t) : t.Every P := by
  obtain ⟨-, -, hread, hfunctions⟩ := of_read h
  refine ⟨OperatorFunctions.every_ofSource hP ho hread, ?_⟩
  rw [hfunctions]
  exact Table.every_ofEntries hf

/-- Settings keep what holds of the functions that a step brings in. -/
theorem Every.revise (hP : ∀ run, P (.native run)) {s : Step} (hs : s.Brings P) {t t' : Tables}
    (h : t.Every P) (hr : s.revise t = .ok t') : t'.Every P := by
  match s with
  | .setOperators operators =>
    obtain ⟨ops, -, hr⟩ := exists_of_bind_eq_ok hr
    rw [← Except.ok.inj hr]
    exact ⟨h.operatorFunctions, h.functions⟩
  | .setPrecedence levels =>
    obtain ⟨p, -, hr⟩ := exists_of_bind_eq_ok hr
    rw [← Except.ok.inj hr]
    exact ⟨h.operatorFunctions, h.functions⟩
  | .setOperatorFunctions functions =>
    obtain ⟨o, ho, hr⟩ := exists_of_bind_eq_ok hr
    rw [← Except.ok.inj hr]
    exact ⟨OperatorFunctions.every_ofSource hP hs ho, h.functions⟩
  | .addFunction name function =>
    obtain ⟨_, -, hr⟩ := exists_of_bind_eq_ok hr
    rw [← Except.ok.inj hr]
    exact ⟨h.operatorFunctions, h.functions.insert name hs⟩
  | .addFunctions (some fs) =>
    obtain ⟨_, -, hr⟩ := exists_of_bind_eq_ok hr
    rw [← Except.ok.inj hr]
    exact ⟨h.operatorFunctions, h.functions.insertAll (hs fs rfl)⟩
  | .setFunctions (some fs) =>
    obtain ⟨_, -, hr⟩ := exists_of_bind_eq_ok hr
    rw [← Except.ok.inj hr]
    exact ⟨h.operatorFunctions, Table.every_ofEntries (hs fs rfl)⟩
  | .removeVariable name =>
    rw [Step.revise] at hr
    split at hr
    · rw [← Except.ok.inj hr]
      exact ⟨h.operatorFunctions, h.functions⟩
    · exact absurd hr (by simp)
  | .removeFunction name =>
    rw [Step.revise] at hr
    split at hr
    · rw [← Except.ok.inj hr]
      exact ⟨h.operatorFunctions, h.functions.erase name⟩
    · exact absurd hr (by simp)
  | .reset operators levels bindings operatorFunctions functions =>
    exact every_read hP hs.1 hs.2 hr
  | .addVariables none | .setVariables none | .addFunctions none | .setFunctions none =>
    exact absurd hr (by simp [Step.revise])
  | .addVariable _ _ | .addVariables (some _) | .setVariables (some _) =>
    rw [← Except.ok.inj hr]
    exact ⟨h.operatorFunctions, h.functions⟩
  | .solve _ | .tokenize _ | .parse _ _ | .parseText _ _ | .evaluate _ _ | .addOperator .. |
    .clearCaches | .snapshot | .invalid _ =>
    rw [← Except.ok.inj hr]
    exact h

/-- The functions that an evaluation may call are in force or built in. -/
theorem Every.of_scope (hP : ∀ b : Builtin, P b.function) {t : Tables} (h : t.Every P)
    (source : Option String) {f : Function}
    (hf : Scope.Has ⟨t.bindings, t.operatorFunctions, t.functions, source⟩ f) : P f := by
  obtain ⟨op, hf⟩ | ⟨op, hf⟩ | ⟨name, hf⟩ := hf
  · exact h.operatorFunctions.unary op f hf
  · exact h.operatorFunctions.binary op f hf
  · obtain hfind | ⟨b, rfl⟩ := Scope.of_function hf
    · exact h.functions name f hfind
    · exact hP b

theorem Every.scope (hP : ∀ run, P (.native run)) {t : Tables} (h : t.Every P)
    (source : Option String) {f : Function}
    (hf : Scope.Has ⟨t.bindings, t.operatorFunctions, t.functions, source⟩ f) : P f :=
  h.of_scope (fun _ => hP _) source hf

end Tables

/-- An engine can be made if the size of its stores and its settings can be read. -/
theorem Engine.create_eq_ok_iff {limits : Limits} {caching : Bool} {cacheSize operators : Datum}
    {levels : Precedence.Source} {bindings : List (String × Value)}
    {operatorFunctions : OperatorSource} {functions : List (String × Function)} {c : Change} :
    create limits caching cacheSize operators levels bindings operatorFunctions functions = .ok c
      ↔ ∃ size tables, Cache.capacity? cacheSize = .ok size
        ∧ Tables.read operators levels bindings operatorFunctions functions = .ok tables
        ∧ c = ofTables limits caching size tables := by
  constructor
  · intro hc
    obtain ⟨size, hsize, hc⟩ := exists_of_bind_eq_ok hc
    obtain ⟨tables, htables, hc⟩ := exists_of_bind_eq_ok hc
    exact ⟨size, tables, hsize, htables, (Except.ok.inj hc).symm⟩
  · rintro ⟨size, tables, hsize, htables, rfl⟩
    unfold create
    rw [hsize, htables]
    rfl

end Reckon
