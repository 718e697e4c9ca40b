import Reckon.Engine
/-
  Using an engine. Each use is a step with an answer; what happens on the way is a list of
  events. A function of an expression may itself perform steps on the engine, so a step runs on
  a world of an engine and the events so far, and a failure keeps what was done before it. How
  deep such steps may be nested is bounded.
-/
namespace Reckon

/-- An engine at work: its state, and what has happened. -/
structure World where
  engine : Engine
  events : List Event

/-- A computation on an engine at work. -/
abbrev Run (α : Type) := EStateM Failure World α

/-- What an engine is in a moment. -/
structure Snapshot where
  tables : Tables
  limits : Limits

/-- What a step answers. -/
inductive Answer where
  | nothing
  | value (v : Value)
  | tokens (ts : List Token)
  | expr (e : Expr)
  | snapshot (s : Snapshot)

/-- The value that a function answers whose last step answers this. -/
def Answer.toValue : Answer → Value
  | value v => v
  | _ => .none

namespace Session

/-! ## Effects -/

def emit (event : Event) : Run Unit := fun w => .ok () { w with events := w.events ++ [event] }

/-- Makes a change of the engine. -/
def commit (f : Engine → Change) : Run Unit := fun w =>
  let c := f w.engine
  .ok () ⟨c.engine, w.events ++ c.events⟩

/-- Changes the engine without an event. -/
def update (f : Engine → Engine) : Run Unit := fun w => .ok () { w with engine := f w.engine }

def fault {α : Type} (f : Fault) : Run α := throw (.fault f)

/-- Goes on unless there is a fault. -/
def lift {α : Type} : Except Fault α → Run α
  | .ok a => pure a
  | .error f => fault f

/-! ## Stages -/

/-- The tokens of a text, by a new scan. -/
def scan (expression : Datum) : Run (List Token) := do
  match expression with
  | .str text =>
    let e := (← get).engine
    match Token.ofText e.trie e.limits text with
    | .error f => throw f
    | .ok tokens =>
      emit (.scanned text.toList.length tokens.length)
      if e.caching then update fun e => { e with tokens := e.tokens.set text tokens }
      pure tokens
  | d => fault (.expressionNotText d.typeName)

/-- What a store remembers of a datum, which only a text can have an entry for. A datum that can
be no key is a fault. -/
def consult {α ν : Type} (get : String → Engine → Option ν × Engine) (expression : Datum)
    (found : ν → Run α) (otherwise : Run α) : Run α :=
  if !expression.isKey then fault (.notKey expression.typeName)
  else
    match expression with
    | .str text => fun w =>
      match get text w.engine with
      | (some v, e) => found v { w with engine := e }
      | (none, _) => otherwise w
    | _ => otherwise

def recallTokens (text : String) (e : Engine) : Option (List Token) × Engine :=
  match e.tokens.get? text with
  | (v, tokens) => (v, { e with tokens })

def recallTree (text : String) (e : Engine) : Option Expr × Engine :=
  match e.trees.get? text with
  | (v, trees) => (v, { e with trees })

def recallResult (expr : Expr) (e : Engine) : Option Value × Engine :=
  match e.results.get? expr.bare with
  | (v, results) => (v, { e with results })

/-- The tokens of a text. -/
def tokenize (expression : Datum) : Run (List Token) := do
  if (← get).engine.caching then consult recallTokens expression pure (scan expression)
  else scan expression

/-- The expression that tokens denote. -/
def parse (tokens : List Token) (source : Option String) : Run Expr := do
  let e := (← get).engine
  match Parser.parse e.tables.precedence e.limits source tokens with
  | (.ok expr, cursor) =>
    emit (.parsed tokens.length cursor.nodes)
    pure expr
  | (.error f, _) => throw f

/-- The scope of an engine at work; a call is an event, and is carried out by `invoke`. -/
def host (invoke : Function → List Value → Run Value) : Host World where
  scope w := w.engine.scope
  call f args := do
    emit (.called ⟨f, args⟩)
    invoke f args

/-- The value of a tree, by a new evaluation. -/
def compute (invoke : Function → List Value → Run Value) (expr : Expr)
    (source : Option String) : Run Value := do
  update (·.beginEvaluation source)
  let v ← Evaluation.eval (host invoke) expr
  if (← get).engine.caching then
    update fun e => { e with results := e.results.set expr.bare v }
  pure v

/-- The value of a tree. -/
def evaluate (invoke : Function → List Value → Run Value) (expr : Expr)
    (source : Option String) : Run Value := do
  let w ← get
  if w.engine.caching then
    match recallResult expr w.engine with
    | (some v, e) =>
      update fun _ => e
      pure v
    | (none, _) => compute invoke expr source
  else compute invoke expr source

/-- The text of an expression, if it is one. -/
def sourceOf : Datum → Option String
  | .str text => some text
  | _ => none

/-- The tree of a text, by way of its tokens. -/
def buildTree (expression : Datum) : Run Expr := do
  let tokens ← tokenize expression
  let expr ← parse tokens (sourceOf expression)
  if (← get).engine.caching then
    match expression with
    | .str text => update fun e => { e with trees := e.trees.set text expr }
    | _ => pure ()
  pure expr

/-- The tree of a text. -/
def tree (expression : Datum) : Run Expr := do
  if (← get).engine.caching then consult recallTree expression pure (buildTree expression)
  else buildTree expression

/-- The value of a text. -/
def solve (invoke : Function → List Value → Run Value) (expression : Datum) : Run Value := do
  let expr ← tree expression
  evaluate invoke expr (sourceOf expression)

/-! ## Settings -/

/-- A form of an operator is given whole or not at all. -/
def formsComplete (operator : Datum) (binary : Option Function) (binaryLevel : Datum)
    (unary : Option Function) (unaryLevel : Datum) : Except Fault Unit :=
  let given : Datum → Bool
    | .none => false
    | _ => true
  if binary.isSome != given binaryLevel then .error .binaryFormIncomplete
  else if unary.isSome != given unaryLevel then .error .unaryFormIncomplete
  else if binary.isNone && unary.isNone then .error (.noForm operator.text)
  else if !operator.isKey then .error (.notKey operator.typeName)
  else .ok ()

/-- The operators with one more, unless it is among them. -/
def withOperator (operators : List String) (operator : String) : List String :=
  if operator ∈ operators then operators else operators ++ [operator]

/-- The operators that group to the right, with or without one of them. -/
def withAssociativity (right : List Datum) (operator : String) (isRight : Bool) : List Datum :=
  let others := right.filter fun d => !Datum.same d (.str operator)
  if isRight then others ++ [.str operator] else others

/-- The precedence with the levels of one more operator. -/
def withLevels (p : Precedence) (operator : String) (binary : Option Level)
    (unary : Option Level) (isRight : Bool) : Precedence :=
  { p with
    unary := match unary with
      | some level => p.unary.insert operator level
      | none => p.unary
    binary := match binary with
      | some level => p.binary.insert operator level
      | none => p.binary
    rightAssociative := match binary with
      | some _ => withAssociativity p.rightAssociative operator isRight
      | none => p.rightAssociative }

/-- An optional entry more. -/
def withEntry (t : Table Function) (name : String) : Option Function → Table Function
  | some f => t.insert name f
  | none => t

/-- Makes an operator known to all stages: first as a word, then with its levels, then with its
functions. -/
def addOperator (operator : Datum) (binary : Option Function) (binaryLevel : Datum)
    (unary : Option Function) (unaryLevel : Datum) (isRight : Bool) : Run Unit := do
  lift (formsComplete operator binary binaryLevel unary unaryLevel)
  let name ← lift operator.operator?
  let tables := (← get).engine.tables
  commit (·.setOperators (withOperator tables.operators name))
  commit (·.setPrecedence (withLevels tables.precedence name (binary.map fun _ => binaryLevel)
    (unary.map fun _ => unaryLevel) isRight))
  let functions ← lift (OperatorFunctions.ofTables
    (withEntry tables.operatorFunctions.unary name unary)
    (withEntry tables.operatorFunctions.binary name binary))
  commit (·.setOperatorFunctions functions)

/-- The operators of a list given as plain data. -/
def readOperators (operators : Datum) : Except Fault (List String) := do
  Datum.operators? (← operators.items)

/-- Entries that have to be given. -/
def entries {α : Type} (missing : Fault) : Option (List (String × α)) → Run (List (String × α))
  | some es => pure es
  | none => fault missing

/-- Functions that have to be given, all of which can be called. -/
def functionEntries (functions : Option (List (String × Function))) :
    Run (List (String × Function)) := do
  let fs ← entries (.noEntries Datum.none.typeName) functions
  lift (Tables.checkFunctions fs)
  pure fs

/-- Removes an entry; nothing is changed where there is none. -/
def remove (f : Engine → Except Fault Change) : Run Unit := do
  let c ← lift (f (← get).engine)
  commit fun _ => c

/-! ## Steps -/

/-- One step. -/
def perform (invoke : Function → List Value → Run Value) : Step → Run Answer
  | .solve expression => do
    let v ← solve invoke expression
    pure (.value v)
  | .tokenize expression => do
    let ts ← tokenize expression
    pure (.tokens ts)
  | .parse tokens source => do
    match tokens with
    | none => fault .noTokensGiven
    | some ts =>
      let e ← parse ts source
      pure (.expr e)
  | .parseText text source => do
    let ts ← tokenize text
    let e ← parse ts source
    pure (.expr e)
  | .evaluate expr source => do
    let v ← evaluate invoke expr source
    pure (.value v)
  | .setOperators operators => do
    let ops ← lift (readOperators operators)
    commit (·.setOperators ops)
    pure .nothing
  | .setPrecedence levels => do
    let p ← lift (Precedence.ofSource levels)
    commit (·.setPrecedence p)
    pure .nothing
  | .setOperatorFunctions functions => do
    let fs ← lift (OperatorFunctions.ofSource functions)
    commit (·.setOperatorFunctions fs)
    pure .nothing
  | .addOperator operator binary binaryLevel unary unaryLevel isRight => do
    addOperator operator binary binaryLevel unary unaryLevel isRight
    pure .nothing
  | .addVariable name value => do
    commit (·.addVariables [(name, value)])
    pure .nothing
  | .addVariables bindings => do
    let es ← entries (.notIterable Datum.none.typeName) bindings
    commit (·.addVariables es)
    pure .nothing
  | .setVariables bindings => do
    let es ← entries (.notIterable Datum.none.typeName) bindings
    commit (·.setVariables es)
    pure .nothing
  | .removeVariable name => do
    remove (·.removeVariable name)
    pure .nothing
  | .addFunction name function => do
    lift (Tables.checkFunctions [(name, function)])
    commit (·.addFunctions [(name, function)])
    pure .nothing
  | .addFunctions functions => do
    let fs ← functionEntries functions
    commit (·.addFunctions fs)
    pure .nothing
  | .setFunctions functions => do
    let fs ← functionEntries functions
    commit (·.setFunctions fs)
    pure .nothing
  | .removeFunction name => do
    remove (·.removeFunction name)
    pure .nothing
  | .reset operators levels bindings operatorFunctions functions => do
    let tables ← lift (Tables.read operators levels bindings operatorFunctions functions)
    commit (·.reset tables)
    pure .nothing
  | .clearCaches => do
    update Engine.clearCaches
    pure .nothing
  | .snapshot => do
    let e := (← get).engine
    pure (.snapshot ⟨e.tables, e.limits⟩)
  | .invalid cause => fault cause

/-- Steps one after the other; the answer is that of the last one. -/
def performAll (run : Step → Run Answer) : List Step → Answer → Run Answer
  | [], last => pure last
  | s :: ss, _ => do
    let answer ← run s
    performAll run ss answer

/-- Carries out a call, with at most `depth` calls inside one another that perform steps. -/
def invoke : (depth : Nat) → Function → List Value → Run Value
  | depth + 1, .script steps, _ => do
    let answer ← performAll (perform (invoke depth)) steps .nothing
    pure answer.toValue
  | 0, .script _, _ => fault .nestedTooDeep
  | _, f, args => fun w =>
    match f.apply args with
    | .ok v => .ok v w
    | .error e => .error e w

/-- How deep steps may be nested. -/
def maxNesting : Nat := 200

/-- A step from outside, on an engine with no evaluation in progress. -/
def run (s : Step) : Run Answer := perform (invoke maxNesting) s

end Session

/-- The outcome of a step, and what happened on the way. -/
structure Report where
  result : Except Failure Answer
  events : List Event

namespace Engine

/-- Between steps no evaluation is in progress. -/
def rest (e : Engine) : Engine := { e with evaluating := none }

/-- Performs a step. -/
def step (e : Engine) (s : Step) : Report × Engine :=
  match Session.run s ⟨e, []⟩ with
  | .ok a w => (⟨.ok a, w.events⟩, w.engine.rest)
  | .error f w => (⟨.error f, w.events⟩, w.engine.rest)

/-- Performs steps one after the other. A failure ends its step and no other. -/
def steps (e : Engine) : List Step → List Report × Engine
  | [] => ([], e)
  | s :: ss =>
    let (report, e) := e.step s
    let (reports, e) := e.steps ss
    (report :: reports, e)

/-- A new engine. -/
def create (limits : Limits) (caching : Bool) (cacheSize : Datum) (operators : Datum)
    (levels : Precedence.Source) (bindings : List (String × Value))
    (operatorFunctions : OperatorSource) (functions : List (String × Function)) :
    Except Fault Change := do
  let size ← Cache.capacity? cacheSize
  let tables ← Tables.read operators levels bindings operatorFunctions functions
  .ok (ofTables limits caching size tables)

end Engine

end Reckon
