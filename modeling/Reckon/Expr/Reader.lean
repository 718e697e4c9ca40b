import Reckon.Expr.Parser
import Reckon.Token.Scanner
/-
  A reader keeps tokens and a cursor between calls: after an expression that does not end the
  tokens, the next call goes on behind it. The count of nodes runs on until the reader is reset.
-/
namespace Reckon

/-- A reader of expressions. -/
structure Reader where
  limits : Limits
  tokens : Option (List Token)
  precedence : Precedence
  source : Option String
  cursor : Parser.Cursor

namespace Reader

/-- The tokens are taken first, the tables checked then; what was loaded before stays in place
where the tables are refused. -/
def reset (r : Reader) (tokens : Option (List Token)) (precedence : Precedence.Source)
    (source : Option String) : Except Fault Unit × Reader :=
  match tokens with
  | none => (.error .noTokensGiven, r)
  | some ts =>
    let r := { r with tokens := some ts }
    match Precedence.ofSource precedence with
    | .error f => (.error f, r)
    | .ok precedence => (.ok (), { r with precedence, source, cursor := {} })

/-- A reader, loaded when tokens are given. -/
def create (tokens : Option (List Token)) (precedence : Precedence.Source)
    (source : Option String) (limits : Limits) : Except Fault Reader :=
  (Precedence.ofSource precedence).map fun p => ⟨limits, tokens, p, source, {}⟩

def grammar (r : Reader) (tokens : List Token) : Parser.Grammar :=
  Parser.grammarFor r.precedence r.limits r.source tokens

/-- Parses from the cursor on; with `trailing` set, no token may follow the expression. -/
def parse (r : Reader) (trailing : Bool) : Except Failure Expr × Reader :=
  match r.tokens with
  | none => (.error (.fault .noTokensLoaded), r)
  | some tokens =>
    let g := r.grammar tokens
    let rest := tokens.drop r.cursor.index
    let out := Parser.expression g rest r.cursor
    let (result, cursor) :=
      if trailing then Parser.checkTrailing g rest r.cursor.index out else out
    (result, { r with cursor })

end Reader

/-- The expression that a text denotes. -/
def Expr.ofText (operators : OperatorTrie) (precedence : Precedence) (limits : Limits)
    (text : String) : Except Failure Expr := do
  let tokens ← Token.ofText operators limits text
  (Parser.parse precedence limits (some text) tokens).1

/-- The expression that a text denotes, with operators and tables as plain data. The text is
scanned before the tables are checked. -/
def Expr.ofSource (text : String) (precedence : Precedence.Source) (operators : Datum)
    (limits : Limits) : Except Failure Expr :=
  match Scanner.create (.str text) operators limits with
  | .error f => .error (.fault f)
  | .ok scanner => do
    let tokens ← scanner.run.1
    match Precedence.ofSource precedence with
    | .error f => .error (.fault f)
    | .ok p => (Parser.parse p limits (some text) tokens).1

/-- The expression that tokens denote. -/
def Expr.ofTokens (tokens : Option (List Token)) (precedence : Precedence.Source)
    (source : Option String) (limits : Limits) : Except Failure Expr :=
  match Reader.create tokens precedence source limits with
  | .error f => .error (.fault f)
  | .ok r => (r.parse true).1

end Reckon
