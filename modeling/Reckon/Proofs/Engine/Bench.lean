import Reckon.Expr.Reader
import Reckon.Proofs.Engine.Quiet
import Reckon.Proofs.Token.Scanning
/-
  An engine with its tools. A scanner and a reader are made once and serve all uses of an engine,
  and the evaluation that was begun last is not put away when it is over. So between uses there is
  more than settings and stores: the text of the last scan, the cursor, count and tables of the last
  parse, the tables of the last evaluation (`Bench`).

  Every use loads a tool before it runs it. A scanner that scans with the operators it was given
  last takes new ones, whether it had them before or not, and scans from the start of the text it is
  given (`Scanner.Fits`).
-/
namespace Reckon

/-- An engine at work with the tools that it keeps between uses. -/
structure Bench where
  world : World
  scanner : Scanner
  reader : Reader

/-- A computation on a bench. -/
abbrev Job (α : Type) := EStateM Failure Bench α

namespace Session

variable {α ν : Type}

/-- What a store remembers; to find it is a use of the store. -/
def ask (store : Engine → Option ν × Engine) : Run (Option ν) := fun w =>
  match store w.engine with
  | (some v, engine) => .ok (some v) { w with engine }
  | (none, _) => .ok none w

/-- What a store remembers of a datum. -/
def recallText (store : String → Engine → Option ν × Engine) (d : Datum) : Run (Option ν) := do
  if (← get).engine.caching then consult store d (fun v => pure (some v)) (pure none)
  else pure none

/-- What is remembered of a tree. -/
def recallValue (expr : Expr) : Run (Option Value) := do
  if (← get).engine.caching then ask (recallResult expr) else pure none

/-- Something has been found, and is put into a store if anything is remembered. -/
def keep (f : Engine → Engine) (a : α) : Run α := do
  if (← get).engine.caching then update f
  pure a

/-- The tokens of a text have been found. -/
def keepTokens (d : Datum) (ts : List Token) : Run (List Token) := do
  match d with
  | .str text =>
    emit (.scanned text.toList.length ts.length)
    keep (fun e => { e with tokens := e.tokens.set text ts }) ts
  | _ => pure ts

/-- The expression that tokens denote has been found. -/
def keepParse (tokens nodes : Nat) (expr : Expr) : Run Expr := do
  emit (.parsed tokens nodes)
  pure expr

/-- The tree of a text has been found. -/
def keepTree (d : Datum) (expr : Expr) : Run Expr := do
  if (← get).engine.caching then
    match d with
    | .str text => update fun e => { e with trees := e.trees.set text expr }
    | _ => pure ()
  pure expr

/-- The value of a tree has been found. -/
def keepResult (expr : Expr) (v : Value) : Run Value :=
  keep (fun e => { e with results := e.results.set expr.bare v }) v

end Session

namespace Bench

open Session (sourceOf)

variable {α β : Type}

/-! ## Jobs -/

/-- A computation that takes no tool. -/
def own (m : Run α) : Job α := fun b =>
  match m b.world with
  | .ok a world => .ok a { b with world }
  | .error f world => .error f { b with world }

/-- Gives the scanner other operators. -/
def retool (operators : List String) : Job Unit := fun b =>
  match b.scanner.setOperators (Event.texts operators) with
  | .error f => .error (.fault f) b
  | .ok scanner => .ok () { b with scanner }

/-- The tokens of a text, by the scanner. -/
def scan (d : Datum) : Job (List Token) := fun b =>
  match b.scanner.reset d (Event.texts b.world.engine.tables.operators) with
  | .error f => .error (.fault f) b
  | .ok scanner =>
    match scanner.run with
    | (.error f, scanner) => .error f { b with scanner }
    | (.ok ts, scanner) => own (Session.keepTokens d ts) { b with scanner }

/-- The expression that tokens denote, by the reader. -/
def parse (ts : List Token) (source : Option String) : Job Expr := fun b =>
  match b.reader.reset (some ts) (.table b.world.engine.tables.precedence) source with
  | (.error f, reader) => .error (.fault f) { b with reader }
  | (.ok (), reader) =>
    match reader.parse true with
    | (.error f, reader) => .error f { b with reader }
    | (.ok expr, reader) =>
      own (Session.keepParse ts.length reader.cursor.nodes expr) { b with reader }

/-- The tokens of a text. -/
def tokenize (d : Datum) : Job (List Token) := do
  let found ← own (Session.recallText Session.recallTokens d)
  found.elim (scan d) pure

/-- The tree of a text, by way of its tokens. -/
def buildTree (d : Datum) : Job Expr := do
  let ts ← tokenize d
  let expr ← parse ts (sourceOf d)
  own (Session.keepTree d expr)

/-- The tree of a text. -/
def tree (d : Datum) : Job Expr := do
  let found ← own (Session.recallText Session.recallTree d)
  found.elim (buildTree d) pure

/-- The host of an engine at work, with its tools. -/
def host (invoke : Function → List Value → Job Value) : Host Bench where
  scope b := b.world.engine.scope
  call f args := do
    own (Session.emit (.called ⟨f, args⟩))
    invoke f args

/-- The value of a tree, by a new evaluation. It stays when it is over. -/
def compute (invoke : Function → List Value → Job Value) (expr : Expr)
    (source : Option String) : Job Value := do
  own (Session.update (·.beginEvaluation source))
  let v ← Evaluation.eval (host invoke) expr
  own (Session.keepResult expr v)

/-- The value of a tree. -/
def evaluate (invoke : Function → List Value → Job Value) (expr : Expr)
    (source : Option String) : Job Value := do
  let found ← own (Session.recallValue expr)
  found.elim (compute invoke expr source) pure

/-- The value of a text. -/
def solve (invoke : Function → List Value → Job Value) (d : Datum) : Job Value := do
  let expr ← tree d
  evaluate invoke expr (sourceOf d)

/-- Makes an operator known to all stages, the scanner first. -/
def addOperator (operator : Datum) (binary : Option Function) (binaryLevel : Datum)
    (unary : Option Function) (unaryLevel : Datum) (isRight : Bool) : Job Unit := do
  own (Session.lift (Session.formsComplete operator binary binaryLevel unary unaryLevel))
  let name ← own (Session.lift operator.operator?)
  let tables := (← get).world.engine.tables
  retool (Session.withOperator tables.operators name)
  own (Session.commit (·.setOperators (Session.withOperator tables.operators name)))
  own (Session.commit (·.setPrecedence (Session.withLevels tables.precedence name
    (binary.map fun _ => binaryLevel) (unary.map fun _ => unaryLevel) isRight)))
  let functions ← own (Session.lift (OperatorFunctions.ofTables
    (Session.withEntry tables.operatorFunctions.unary name unary)
    (Session.withEntry tables.operatorFunctions.binary name binary)))
  own (Session.commit (·.setOperatorFunctions functions))

/-- One step. -/
def perform (invoke : Function → List Value → Job Value) : Step → Job Answer
  | .solve d => do
    let v ← solve invoke d
    pure (.value v)
  | .tokenize d => do
    let ts ← tokenize d
    pure (.tokens ts)
  | .parse (some ts) source => do
    let expr ← parse ts source
    pure (.expr expr)
  | .parseText d source => do
    let ts ← tokenize d
    let expr ← parse ts source
    pure (.expr expr)
  | .evaluate expr source => do
    let v ← evaluate invoke expr source
    pure (.value v)
  | .setOperators operators => do
    let ops ← own (Session.lift (Session.readOperators operators))
    retool ops
    own (Session.commit (·.setOperators ops))
    pure .nothing
  | .addOperator operator binary binaryLevel unary unaryLevel isRight => do
    addOperator operator binary binaryLevel unary unaryLevel isRight
    pure .nothing
  | .reset operators levels bindings operatorFunctions functions => do
    let tables ← own (Session.lift
      (Tables.read operators levels bindings operatorFunctions functions))
    retool tables.operators
    own (Session.commit (·.reset tables))
    pure .nothing
  | s => own (Session.perform Session.answer s)

/-- Steps one after the other; the answer is that of the last one. -/
def performAll (run : Step → Job Answer) : List Step → Answer → Job Answer
  | [], last => pure last
  | s :: ss, _ => do
    let answer ← run s
    performAll run ss answer

/-- Carries out a call. -/
def invoke : (depth : Nat) → Function → List Value → Job Value
  | depth + 1, .script steps, _ => do
    let answer ← performAll (perform (invoke depth)) steps .nothing
    pure answer.toValue
  | 0, .script _, _ => own (Session.fault .nestedTooDeep)
  | _, f, args => own (Session.answer f args)

/-- A bench to start the next step on: nothing has happened yet. -/
def quiet (b : Bench) : Bench := { b with world := { b.world with events := [] } }

/-- Performs a step. Tools stay as they are left, and so does the evaluation begun last. -/
def step (b : Bench) (s : Step) : Report × Bench :=
  match perform (invoke Session.maxNesting) s b.quiet with
  | .ok a b => (⟨.ok a, b.world.events⟩, b)
  | .error f b => (⟨.error f, b.world.events⟩, b)

/-- Performs steps one after the other. -/
def steps (b : Bench) : List Step → List Report × Bench
  | [] => ([], b)
  | s :: ss =>
    let (report, b) := b.step s
    let (reports, b) := b.steps ss
    (report :: reports, b)

/-- A new engine with new tools, of which the scanner is given the operators at once. -/
def create (limits : Limits) (caching : Bool) (cacheSize : Datum) (operators : Datum)
    (levels : Precedence.Source) (bindings : List (String × Value))
    (operatorFunctions : OperatorSource) (functions : List (String × Function)) :
    Except Fault Bench := do
  let c ← Engine.create limits caching cacheSize operators levels bindings operatorFunctions
    functions
  let scanner : Scanner := ⟨limits, none, .ofList defaultOperators, none, none⟩
  let scanner ← scanner.setOperators (Event.texts c.engine.tables.operators)
  .ok ⟨⟨c.engine, c.events⟩, scanner, ⟨limits, none, .default, none, {}⟩⟩

end Bench

/-! ## Tools that fit -/

/-- Operators none of which is empty are read as they are. -/
theorem Datum.operators_texts {ops : List String} (h : "" ∉ ops) :
    Datum.operators? (ops.map .str) = .ok ops := by
  induction ops with
  | nil => rfl
  | cons op ops ih =>
    have hhead : Datum.operator? (.str op) = .ok op := if_neg (List.ne_of_not_mem_cons h).symm
    have htail := ih (List.not_mem_of_not_mem_cons h)
    unfold Datum.operators? at htail ⊢
    rw [List.map_cons, List.mapM_cons, hhead, htail]
    rfl

/-- Operators that are read are not empty. -/
theorem Datum.not_mem_of_operators {items : List Datum} {ops : List String}
    (h : Datum.operators? items = .ok ops) : "" ∉ ops := by
  induction items generalizing ops with
  | nil =>
    obtain rfl : [] = ops := Except.ok.inj h
    exact List.not_mem_nil
  | cons d items ih =>
    unfold Datum.operators? at h ih
    rw [List.mapM_cons] at h
    obtain ⟨op, hd, h⟩ := exists_of_bind_eq_ok h
    obtain ⟨rest, hrest, h⟩ := exists_of_bind_eq_ok h
    obtain rfl : op :: rest = ops := Except.ok.inj h
    obtain rfl := Datum.of_operator hd
    refine List.not_mem_cons_of_ne_of_not_mem ?_ (ih hrest)
    rintro rfl
    exact absurd hd (by simp [Datum.operator?])

theorem Tables.not_mem_of_read {operators : Datum} {levels : Precedence.Source}
    {bindings : List (String × Value)} {operatorFunctions : OperatorSource}
    {functions : List (String × Function)} {tables : Tables}
    (h : Tables.read operators levels bindings operatorFunctions functions = .ok tables) :
    "" ∉ tables.operators := by
  obtain ⟨⟨items, hops⟩, -⟩ := of_read h
  exact Datum.not_mem_of_operators hops

/-- A scanner that scans with the operators it was given last. -/
structure Scanner.Fits (s : Scanner) (limits : Limits) : Prop where
  limits : s.limits = limits
  operators : s.operators = .ofList (s.given.getD defaultOperators)

namespace Scanner.Fits

variable {s : Scanner} {limits : Limits} {ops : List String}

/-- The operators are taken, whether the scanner had them before or not. -/
theorem setOperators (h : s.Fits limits) (hops : "" ∉ ops) :
    ∃ s', s.setOperators (Event.texts ops) = .ok s' ∧ s'.Fits limits
      ∧ s'.operators = .ofList ops := by
  have hset : s.setOperators (Event.texts ops)
      = if s.given = some ops then .ok s
        else .ok { s with given := some ops, operators := .ofList ops } := by
    show (Datum.operators? (ops.map .str) >>= fun operators => _) = _
    rw [Datum.operators_texts hops]
    rfl
  rw [hset]
  split
  · next hgiven =>
    refine ⟨s, rfl, h, ?_⟩
    rw [h.operators, hgiven]
    rfl
  · exact ⟨_, rfl, ⟨h.limits, rfl⟩, rfl⟩

/-- A scanner that is loaded scans the text from its start, whatever it was left with. -/
theorem reset (h : s.Fits limits) (hops : "" ∉ ops) (text : String) :
    ∃ s', s.reset (.str text) (Event.texts ops) = .ok s' ∧ s'.Fits limits
      ∧ s'.run.1 = Token.ofText (.ofList ops) limits text := by
  obtain ⟨s', hset, hfits, hoperators⟩ := h.setOperators hops
  refine ⟨{ s' with source := some text, scan := none }, ?_, ⟨hfits.limits, hfits.operators⟩, ?_⟩
  · show (s.setOperators (Event.texts ops) >>= fun s => _) = _
    rw [hset]
    rfl
  · rw [← run_of_loaded limits s'.given (.ofList ops) text, ← hfits.limits, ← hoperators]

theorem run (h : s.Fits limits) : s.run.2.Fits limits := by
  unfold Scanner.run
  split
  · exact h
  · split
    · exact h
    · exact ⟨h.limits, h.operators⟩

end Scanner.Fits

end Reckon
