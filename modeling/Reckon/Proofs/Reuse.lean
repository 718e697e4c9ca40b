import Reckon.Expr.Calculator
import Reckon.Proofs.Engine.Bench
/-
  Tools that are used again. A scanner keeps its operators, its text and its scan, a reader its
  tokens and its cursor, a calculator its expression and its scope; uses that fail leave some of
  this behind, too. A tool that is reset after any uses is the tool that is made anew with what it
  is reset to (`reset_eq_create`): so whatever is asked of it next has the same outcome.

  For a scanner this rests on what it remembers of its operators. It does not enter operators again
  that it was given last, and this is no loss because its trie is always theirs (`Scanner.Holds`).
-/
namespace Reckon

/-! ## Scanners -/

namespace Scanner

/-- A use of a scanner. -/
inductive Use where
  | setOperators (operators : Datum)
  | reset (source operators : Datum)
  | run
  | tokenize (source operators : Datum)

/-- What a use leaves of a scanner. Settings that are refused leave it as it was. -/
def use (s : Scanner) : Use → Scanner
  | .setOperators operators => (s.setOperators operators).toOption.getD s
  | .reset source operators => (s.reset source operators).toOption.getD s
  | .run => s.run.2
  | .tokenize source operators => (s.tokenize source operators).2

/-- What uses leave one after the other. -/
def uses (s : Scanner) (history : List Use) : Scanner := history.foldl use s

/-- The operators that a use makes a scanner scan with, unless it leaves them alone or is
refused. -/
def Use.accepted? : Use → Option (List String)
  | .setOperators operators => (operators? operators).toOption
  | .reset (.str _) operators => (operators? operators).toOption
  | .tokenize (.str _) operators => (operators? operators).toOption
  | _ => none

/-- The operators accepted last, after `ops` to start with. -/
def lastAccepted (ops : List String) (history : List Use) : List String :=
  history.foldl (fun ops u => u.accepted?.getD ops) ops

/-- A scanner scans with the given operators, and what it remembers of them is right. -/
structure Holds (s : Scanner) (limits : Limits) (ops : List String) : Prop where
  fits : s.Fits limits
  operators : s.operators = .ofList ops

variable {s s' : Scanner} {limits : Limits} {ops : List String} {source operators : Datum}

/-- A scanner takes operators or refuses them like a new one, and if it takes them its trie is
theirs, whether it was made again or not. -/
theorem Fits.setOperators_cases (h : s.Fits limits) (operators : Datum) :
    (∃ f, s.setOperators operators = .error f ∧ operators? operators = .error f)
      ∨ ∃ given ops, s.setOperators operators = .ok ⟨limits, given, .ofList ops, s.source, s.scan⟩
        ∧ operators? operators = .ok ops ∧ ops = given.getD defaultOperators
        ∧ ∀ text, create (.str text) operators limits
            = .ok ⟨limits, given, .ofList ops, some text, none⟩ := by
  obtain ⟨limits', given, trie, source, scan⟩ := s
  obtain ⟨rfl, htrie⟩ := h
  cases hitems : operatorItems? operators with
  | error f => exact Or.inl ⟨f, by simp [Scanner.setOperators, operators?, hitems, bind, Except.bind]⟩
  | ok items =>
    rcases of_operatorItems hitems with ⟨rfl, rfl⟩ | ⟨items, -, rfl⟩
    · exact Or.inr ⟨none, defaultOperators, rfl, rfl, rfl, create_default _⟩
    · have hset : Scanner.setOperators ⟨limits', given, trie, source, scan⟩ operators
          = (do
            let ops ← Datum.operators? items
            if given = some ops then .ok ⟨limits', given, trie, source, scan⟩
            else .ok ⟨limits', some ops, .ofList ops, source, scan⟩) := by
        unfold Scanner.setOperators
        rw [hitems]
        rfl
      have hread : operators? operators = Datum.operators? items := by
        unfold operators?
        rw [hitems]
        rfl
      cases hops : Datum.operators? items with
      | error f =>
        rw [hops] at hset hread
        exact Or.inl ⟨f, hset, hread⟩
      | ok ops =>
        rw [hops] at hset hread
        refine Or.inr ⟨some ops, ops, hset.trans ?_, hread, rfl, create_of_items _ hitems hops⟩
        show (if given = some ops then _ else _) = _
        split
        · next hgiven =>
          obtain rfl : trie = .ofList ops := by rw [show trie = _ from htrie, hgiven]; rfl
          rw [hgiven]
        · rfl

/-- A scanner is loaded like a new one, and only with a text. -/
theorem Fits.reset_cases (h : s.Fits limits) (source operators : Datum) :
    (∃ f, s.reset source operators = .error f ∧ (Use.reset source operators).accepted? = none)
      ∨ ∃ s' ops, s.reset source operators = .ok s'
        ∧ (Use.reset source operators).accepted? = some ops ∧ s'.Holds limits ops
        ∧ create source operators limits = .ok s' := by
  cases source with
  | none | bool | int | float | list | dict => exact Or.inl ⟨_, rfl, rfl⟩
  | str text =>
    obtain ⟨f, hset, hread⟩ | ⟨given, ops, hset, hread, hops, hcreate⟩ :=
      h.setOperators_cases operators
    · refine Or.inl ⟨f, ?_, ?_⟩
      · simp only [Scanner.reset, hset, bind, Except.bind]
      · simp only [Use.accepted?, hread, Except.toOption]
    · refine Or.inr ⟨⟨limits, given, .ofList ops, some text, none⟩, ops, ?_, ?_,
        ⟨⟨rfl, by rw [hops]⟩, rfl⟩, hcreate text⟩
      · simp only [Scanner.reset, hset, bind, Except.bind]
      · simp only [Use.accepted?, hread, Except.toOption]

theorem Holds.run (h : s.Holds limits ops) : s.run.2.Holds limits ops := by
  refine ⟨h.fits.run, ?_⟩
  unfold Scanner.run
  split
  · exact h.operators
  · split
    · exact h.operators
    · exact h.operators

/-- One use: the operators that it makes a scanner scan with are those the scanner has after it. -/
theorem Holds.use (h : s.Holds limits ops) (u : Use) :
    (s.use u).Holds limits (u.accepted?.getD ops) := by
  cases u with
  | setOperators operators =>
    obtain ⟨f, hset, hread⟩ | ⟨given, ops', hset, hread, hops, -⟩ :=
      h.fits.setOperators_cases operators
    · simp only [Scanner.use, hset, Use.accepted?, hread, Except.toOption, Option.getD]
      exact h
    · simp only [Scanner.use, hset, Use.accepted?, hread, Except.toOption, Option.getD]
      exact ⟨⟨rfl, by rw [hops]⟩, rfl⟩
  | reset source operators =>
    obtain ⟨f, hreset, hnone⟩ | ⟨s', ops', hreset, hsome, hs', -⟩ :=
      h.fits.reset_cases source operators
    · simp only [Scanner.use, hreset, hnone, Except.toOption, Option.getD]
      exact h
    · simp only [Scanner.use, hreset, hsome, Except.toOption, Option.getD]
      exact hs'
  | run => exact h.run
  | tokenize source operators =>
    have haccepted : (Use.tokenize source operators).accepted?
        = (Use.reset source operators).accepted? := by
      cases source with
      | none | bool | int | float | str | list | dict => rfl
    rw [haccepted]
    obtain ⟨f, hreset, hnone⟩ | ⟨s', ops', hreset, hsome, hs', -⟩ :=
      h.fits.reset_cases source operators
    · simp only [Scanner.use, tokenize, hreset, hnone, Option.getD]
      exact h
    · simp only [Scanner.use, tokenize, hreset, hsome, Option.getD]
      exact hs'.run

theorem Holds.uses (h : s.Holds limits ops) (history : List Use) :
    (s.uses history).Holds limits (lastAccepted ops history) := by
  induction history generalizing s ops with
  | nil => exact h
  | cons u history ih => exact ih (h.use u)

/-- A new scanner has the operators that it is made with. -/
theorem holds_of_create (h : create source operators limits = .ok s) :
    ∃ ops, operators? operators = .ok ops ∧ s.Holds limits ops := by
  have hnew : Fits ⟨limits, none, .ofList defaultOperators, none, none⟩ limits := ⟨rfl, rfl⟩
  have hparts := h
  unfold create at hparts
  obtain ⟨items, hitems, hrest⟩ := exists_of_bind_eq_ok hparts
  obtain ⟨s₁, hset₁, hload⟩ := exists_of_bind_eq_ok hrest
  have hset₁ : Scanner.setOperators ⟨limits, none, .ofList defaultOperators, none, none⟩ operators
      = .ok s₁ := by
    unfold Scanner.setOperators
    rw [hitems]
    exact hset₁
  obtain ⟨f, hset, -⟩ | ⟨given, ops, hset, hread, hops, htext⟩ := hnew.setOperators_cases operators
  · exact absurd (hset₁.symm.trans hset) (by simp)
  · obtain rfl := Except.ok.inj (hset₁.symm.trans hset)
    refine ⟨ops, hread, ?_⟩
    cases source with
    | none =>
      obtain rfl := Except.ok.inj hload
      exact ⟨⟨rfl, by rw [hops]⟩, rfl⟩
    | str text =>
      obtain rfl := Except.ok.inj (h.symm.trans (htext text))
      exact ⟨⟨rfl, by rw [hops]⟩, rfl⟩
    | bool | int | float | list | dict => exact absurd hload (by simp [reset])

end Scanner

/-! ## Readers and calculators -/

namespace Reader

/-- A use of a reader. -/
inductive Use where
  | reset (tokens : Option (List Token)) (precedence : Precedence.Source) (source : Option String)
  | parse (trailing : Bool)

/-- What a use leaves of a reader, whether it fails or not. -/
def use (r : Reader) : Use → Reader
  | .reset tokens precedence source => (r.reset tokens precedence source).2
  | .parse trailing => (r.parse trailing).2

def uses (r : Reader) (history : List Use) : Reader := history.foldl use r

theorem limits_use (r : Reader) (u : Use) : (r.use u).limits = r.limits := by
  cases u with
  | reset tokens precedence source =>
    show (r.reset tokens precedence source).2.limits = r.limits
    unfold reset
    cases tokens with
    | none => rfl
    | some ts =>
      simp only
      cases Precedence.ofSource precedence with
      | error f => rfl
      | ok p => rfl
  | parse trailing =>
    show (r.parse trailing).2.limits = r.limits
    unfold parse
    cases r.tokens with
    | none => rfl
    | some ts => rfl

theorem limits_uses (r : Reader) (history : List Use) : (r.uses history).limits = r.limits := by
  induction history generalizing r with
  | nil => rfl
  | cons u history ih => exact (ih (r.use u)).trans (r.limits_use u)

/-- A reader that is loaded is the reader that is made with the same tokens and limits. -/
theorem create_of_reset {r r' : Reader} {tokens : Option (List Token)}
    {precedence : Precedence.Source} {source : Option String}
    (h : r.reset tokens precedence source = (.ok (), r')) :
    create tokens precedence source r.limits = .ok r' := by
  unfold reset at h
  cases tokens with
  | none => exact absurd h (by simp)
  | some ts =>
    simp only at h
    unfold create
    cases hp : Precedence.ofSource precedence with
    | error f =>
      rw [hp] at h
      exact absurd h (by simp)
    | ok p =>
      rw [hp] at h
      rw [← (Prod.mk.inj h).2]
      rfl

end Reader

namespace Calculator

/-- A use of a calculator. -/
inductive Use where
  | reset (expr : Option Expr) (bindings : Table Value) (operators : OperatorSource)
      (functions : Table Function) (source : Option String)
  | evaluate (expr : Option Expr)

/-- What a use leaves of a calculator. An evaluation leaves it as it was. -/
def use (c : Calculator) : Use → Calculator
  | .reset expr bindings operators functions source =>
    (c.reset expr bindings operators functions source).2
  | .evaluate _ => c

def uses (c : Calculator) (history : List Use) : Calculator := history.foldl use c

/-- A calculator that is loaded is the calculator that is made with the same expression and
scope. -/
theorem create_of_reset {c c' : Calculator} {expr : Option Expr} {bindings : Table Value}
    {operators : OperatorSource} {functions : Table Function} {source : Option String}
    (h : c.reset expr bindings operators functions source = (.ok (), c')) :
    create expr bindings operators functions source = .ok c' := by
  unfold reset at h
  unfold create reset
  cases hops : OperatorFunctions.ofSource operators with
  | error f =>
    rw [hops] at h
    exact absurd h (by simp)
  | ok ops =>
    rw [hops] at h
    rw [← (Prod.mk.inj h).2]

end Calculator

/-! ## Reset and made anew -/

/-- A tool that has been used in any way and is then reset is the tool that is made with what it is
reset to and the same limits. A scanner scans with the operators accepted last, and these are the
default ones where nothing was given. -/
theorem reset_eq_create :
    (∀ (source operators : Datum) (limits : Limits) (s : Scanner) (history : List Scanner.Use),
      Scanner.create source operators limits = .ok s →
        (∃ ops, Scanner.operators? operators = .ok ops
          ∧ (s.uses history).operators = .ofList (Scanner.lastAccepted ops history))
        ∧ ∀ source' operators' s', (s.uses history).reset source' operators' = .ok s' →
          Scanner.create source' operators' limits = .ok s')
      ∧ (∀ (tokens : Option (List Token)) (precedence : Precedence.Source)
          (source : Option String) (limits : Limits) (r : Reader) (history : List Reader.Use),
        Reader.create tokens precedence source limits = .ok r →
          ∀ tokens' precedence' source' r',
            (r.uses history).reset tokens' precedence' source' = (.ok (), r') →
              Reader.create tokens' precedence' source' limits = .ok r')
      ∧ ∀ (expr : Option Expr) (bindings : Table Value) (operators : OperatorSource)
          (functions : Table Function) (source : Option String) (c : Calculator)
          (history : List Calculator.Use),
        Calculator.create expr bindings operators functions source = .ok c →
          ∀ expr' bindings' operators' functions' source' c',
            (c.uses history).reset expr' bindings' operators' functions' source' = (.ok (), c') →
              Calculator.create expr' bindings' operators' functions' source' = .ok c' := by
  refine ⟨?_, ?_, ?_⟩
  · intro source operators limits s history hs
    obtain ⟨ops, hops, hholds⟩ := Scanner.holds_of_create hs
    have huses := hholds.uses history
    refine ⟨⟨ops, hops, huses.operators⟩, fun source' operators' s' hreset => ?_⟩
    obtain ⟨f, herror, -⟩ | ⟨s'', ops', hok, -, -, hcreate⟩ :=
      huses.fits.reset_cases source' operators'
    · exact absurd (herror.symm.trans hreset) (by simp)
    · obtain rfl := Except.ok.inj (hok.symm.trans hreset)
      exact hcreate
  · intro tokens precedence source limits r history hr tokens' precedence' source' r' hreset
    have hlimits : (r.uses history).limits = limits := by
      obtain ⟨p, -, hp⟩ := exists_of_map_eq_ok hr
      rw [r.limits_uses, ← hp]
    rw [← hlimits]
    exact Reader.create_of_reset hreset
  · intro expr bindings operators functions source c history hc expr' bindings' operators'
      functions' source' c' hreset
    exact Calculator.create_of_reset hreset

/-- Uses of a scanner some of which fail or are refused. -/
def Scanner.spoiling : List Scanner.Use :=
  [.tokenize (.str "1 $") .none, .setOperators (.list [.str "**"]), .reset (.int 5) .none,
    .setOperators (.list [.str ""]), .tokenize (.str "2 ** 0x") (.list [.str "**"]), .run]

theorem reset_eq_create_spoiled :
    (∃ s s', Scanner.create .none .none {} = .ok s
        ∧ (s.uses Scanner.spoiling).operators = .ofList ["**"]
        ∧ (s.uses Scanner.spoiling).reset (.str "2 * 3") .none = .ok s'
        ∧ Scanner.create (.str "2 * 3") .none {} = .ok s')
      ∧ (∃ r r', Reader.create (some []) .standard none {} = .ok r
        ∧ (r.uses [.parse true, .reset none .standard none]).reset (some [⟨.constant, "1", 0⟩])
            .standard none = (.ok (), r')
        ∧ Reader.create (some [⟨.constant, "1", 0⟩]) .standard none {} = .ok r')
      ∧ ∃ c c', Calculator.create (some (.var "x" 0)) [] (.datum .none) [] none = .ok c
        ∧ (c.uses [.evaluate none]).reset (some (.constant "1" 0)) [] (.datum .none) [] none
            = (.ok (), c')
        ∧ Calculator.create (some (.constant "1" 0)) [] (.datum .none) [] none = .ok c' := by
  obtain ⟨hscanner, hreader, hcalculator⟩ := reset_eq_create
  refine ⟨⟨_, _, rfl, ?_, rfl, ?_⟩, ⟨_, _, rfl, rfl, ?_⟩, ⟨_, _, rfl, rfl, ?_⟩⟩
  · obtain ⟨⟨ops, hops, htrie⟩, -⟩ := hscanner .none .none {} _ Scanner.spoiling rfl
    obtain rfl := Except.ok.inj hops
    exact htrie
  · exact (hscanner .none .none {} _ Scanner.spoiling rfl).2 _ _ _ rfl
  · exact hreader (some []) .standard none {} _ [.parse true, .reset none .standard none] rfl
      _ _ _ _ rfl
  · exact hcalculator (some (.var "x" 0)) [] (.datum .none) [] none _ [.evaluate none] rfl
      _ _ _ _ _ _ rfl

end Reckon
