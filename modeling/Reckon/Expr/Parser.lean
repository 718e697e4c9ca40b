import Reckon.Error
import Reckon.Expr
import Reckon.Precedence
import Reckon.Token
/-
  Expressions from tokens, by precedence:

    expression ::= operand { operator operand }
    operand    ::= prefix operator expression | primary
    primary    ::= literal | name | name "(" [ expression { "," expression } ] ")"
                 | "(" expression ")"

  The parser reads one token at a time and keeps what is still open on a stack of frames: right
  operands, operands of prefix operators, groups and arguments. Behind an operand it looks at
  the next token. An operator that binds tighter than the innermost frame, or that groups to the
  right, opens a right operand; anything else completes the frame, and the look-up goes on with
  the frame below. So recursion follows the tokens, and inside a step the stack.

  Besides the tokens the parser has a cursor: how many tokens are consumed, how many frames are
  entered and how many nodes are made. The cursor is part of every outcome, also of a failure.
-/
namespace Reckon.Parser

/-- What parsing depends on besides the tokens. -/
structure Grammar where
  precedence : Precedence
  limits : Limits
  /-- The text of the expression, where it is known. -/
  source : Option String
  /-- The position that a missing token is reported at. -/
  stop : Int

/-- How far parsing has come. -/
structure Cursor where
  /-- Consumed tokens. -/
  index : Nat := 0
  /-- Entered frames. -/
  depth : Nat := 0
  /-- Nodes made. -/
  nodes : Nat := 0
  deriving DecidableEq, Repr, Inhabited

/-- Something that is still open, waiting for the operand that is being read. -/
inductive Frame where
  /-- The right operand of an operator of the given level. -/
  | right (left : Expr) (operator : Token) (level : Level)
  /-- The operand of a prefix operator. -/
  | unary (operator : Token) (level : Level)
  | group
  /-- An argument, after the arguments already read. -/
  | arg (name : Token) (before : List Expr)

/-- The level that an operator has to exceed to go on with the operand of a frame. -/
def Frame.floor : Frame → Level
  | right _ _ level => level
  | unary _ level => level
  | group => Precedence.lowest
  | arg .. => Precedence.lowest

/-- The level at the top of a stack; at its bottom is a whole expression. -/
def floor : List Frame → Level
  | [] => Precedence.lowest
  | f :: _ => f.floor

/-- An outcome and the cursor it leaves. -/
abbrev Outcome (α : Type) := Except Failure α × Cursor

/-- What the parser is doing. -/
inductive Mode where
  /-- An operand is due. -/
  | want (stack : List Frame)
  /-- The name of a call is read, and its opening parenthesis is next. -/
  | called (name : Token) (stack : List Frame)
  /-- The parenthesis of a call is read: an argument or the closing parenthesis is due. -/
  | opened (name : Token) (stack : List Frame)
  /-- An operand is read. -/
  | have (stack : List Frame) (operand : Expr)

/-- What a step comes to: a mode for the next token, the finished expression, or a failure. A
frame that is refused because of its depth has been counted all the same. -/
inductive Step where
  | go (mode : Mode) (cursor : Cursor)
  | done (e : Expr) (cursor : Cursor)
  | fail (failure : Failure) (cursor : Cursor)
  | refused (failure : Failure) (cursor : Cursor)

namespace Cursor

def advance (c : Cursor) : Cursor := { c with index := c.index + 1 }

def enter (c : Cursor) : Cursor := { c with depth := c.depth + 1 }

def leave (c : Cursor) : Cursor := { c with depth := c.depth - 1 }

def count (c : Cursor) : Cursor := { c with nodes := c.nodes + 1 }

end Cursor

/-- An error of grammar at a position. -/
def complaint (g : Grammar) (problem : GrammarProblem) (position : Int) : Failure :=
  .error { problem := .grammar problem, position := some position, expression := g.source }

/-- An error of grammar at a token. -/
def at? (g : Grammar) (problem : String → GrammarProblem) (t : Token) : Failure :=
  complaint g (problem t.text) t.position

/-- An error of grammar at the end of the tokens. -/
def atEnd (g : Grammar) (problem : GrammarProblem) : Failure := complaint g problem g.stop

/-- The failure of entering one frame more than the limit admits. -/
def tooDeep (g : Grammar) (position : Int) : Failure :=
  .error { problem := .nestingTooDeep g.limits.nestingDepth, position := some position,
           expression := g.source }

/-- Whether one more frame may be entered. -/
def mayEnter (g : Grammar) (c : Cursor) : Bool := (c.depth + 1 : Int) ≤ g.limits.nestingDepth

/-- Makes a node: counts it, and fails when there are too many. -/
def make (g : Grammar) (c : Cursor) (next : Cursor → Step) : Step :=
  match g.limits.check .nodes c.count.nodes with
  | .ok () => next c.count
  | .error e => .fail e c.count

/-- The level of a token as an operator that stands before an operand. -/
def unaryLevel? (g : Grammar) (t : Token) : Option Level :=
  if t.kind = .operator then g.precedence.unaryLevel t.text else none

/-- The next token with its level, if it is an operator that goes on with an operand read at
`floor`. -/
def takes (g : Grammar) (floor : Level) : Option Token → Except Fault (Option (Token × Level))
  | none => .ok none
  | some t =>
    if t.kind = .operator then
      (g.precedence.continues floor t.text).map fun level => level.map fun l => (t, l)
    else .ok none

/-- The first token of an operand; the token after it tells a call from a name. -/
def startOperand (g : Grammar) (t : Token) (after : Option Token) (stack : List Frame)
    (c : Cursor) : Step :=
  if !mayEnter g c then .refused (tooDeep g t.position) c.enter
  else
    let c := c.enter
    match unaryLevel? g t with
    | some level => .go (.want (.unary t level :: stack)) c.advance
    | none =>
      if t.isOpening then .go (.want (.group :: stack)) c.advance
      else
        match t.kind with
        | .identifier =>
          if after.any Token.isOpening then .go (.called t stack) c.advance
          else make g c.advance fun c => .go (.have stack (.var t.text t.position)) c
        | .constant =>
          make g c.advance fun c => .go (.have stack (.constant t.text t.position)) c
        | _ => .fail (at? g .unexpectedToken t) c

/-- Completes frames behind the operand `e` until one takes the next token. -/
def settle (g : Grammar) (next : Option Token) : List Frame → Expr → Cursor → Step
  | stack, e, c =>
    match takes g (floor stack) next with
    | .error f => .fail (.fault f) c
    | .ok (some (t, level)) => .go (.want (.right e t level :: stack)) c.advance
    | .ok none =>
      let c := c.leave
      match stack with
      | [] => .done e c
      | .right l op _ :: below =>
        make g c fun c => settle g next below (.binary op.text l e op.position) c
      | .unary op _ :: below =>
        make g c fun c => settle g next below (.unary op.text e op.position) c
      | .group :: below =>
        match next with
        | none => .fail (atEnd g .expectedClosing) c
        | some t =>
          if t.isClosing then .go (.have below e) c.advance
          else .fail (at? g .unclosedGroup t) c
      | .arg name before :: below =>
        let args := before ++ [e]
        match g.limits.check .arguments args.length (some name.position) g.source with
        | .error err => .fail err c
        | .ok () =>
          match next with
          | none => .fail (atEnd g .expectedClosing) c
          | some t =>
            if t.isClosing then
              make g c.advance fun c =>
                .go (.have below (.call name.text args name.position)) c
            else if t.kind = .comma then .go (.want (.arg name args :: below)) c.advance
            else .fail (at? g .expectedCommaOrClosing t) c

section

variable {g : Grammar} {next : Option Token} {e : Expr} {c : Cursor}

theorem settle_of_error {stack : List Frame} {f : Fault}
    (h : takes g (floor stack) next = .error f) :
    settle g next stack e c = .fail (.fault f) c := by
  rw [settle.eq_def]
  simp only [h]

/-- An operator that goes on opens a right operand, whatever is open. -/
theorem settle_of_takes {stack : List Frame} {t : Token} {level : Level}
    (h : takes g (floor stack) next = .ok (some (t, level))) :
    settle g next stack e c = .go (.want (.right e t level :: stack)) c.advance := by
  rw [settle.eq_def]
  simp only [h]

end

/-- One token. -/
def step (g : Grammar) (t : Token) (after : Option Token) : Mode → Cursor → Step
  | .want stack, c => startOperand g t after stack c
  | .called name stack, c => .go (.opened name stack) c.advance
  | .opened name stack, c =>
    if t.isClosing then
      make g c.advance fun c => .go (.have stack (.call name.text [] name.position)) c
    else startOperand g t after (.arg name [] :: stack) c
  | .have stack e, c => settle g (some t) stack e c

/-- The end of the tokens. -/
def finish (g : Grammar) : Mode → Cursor → Step
  | .want _, c => .fail (atEnd g .expectedExpression) c
  | .called .., c => .fail (atEnd g .expectedClosing) c
  | .opened .., c => .fail (atEnd g .expectedClosing) c
  | .have stack e, c => settle g none stack e c

/-- Reads tokens up to the end of an expression. -/
def run (g : Grammar) : List Token → Mode → Cursor → Step
  | [], mode, c => finish g mode c
  | t :: ts, mode, c =>
    match step g t ts.head? mode c with
    | .go mode c => run g ts mode c
    | other => other

/-- Leaves the frames that were entered above `depth`. -/
def Cursor.unwind (c : Cursor) (depth : Nat) : Cursor := { c with depth := min c.depth depth }

/-- The expression that tokens start with, from a given cursor on. -/
def expression (g : Grammar) (ts : List Token) (c : Cursor) : Outcome Expr :=
  let step :=
    if ts.isEmpty && !mayEnter g c then Step.refused (tooDeep g g.stop) c.enter
    else run g ts (.want []) c
  match step with
  | .done e c => (.ok e, c)
  | .go _ c' => (.error (atEnd g .expectedExpression), c'.unwind c.depth)
  | .fail f c' => (.error f, c'.unwind c.depth)
  | .refused f c' => (.error f, c'.unwind (c.depth + 1))

/-- A finished expression, if no token follows it. -/
def checkTrailing (g : Grammar) (ts : List Token) (start : Nat) : Outcome Expr → Outcome Expr
  | (.ok e, c) =>
    match (ts.drop (c.index - start)).head? with
    | some t => (.error (at? g .expectedEnd t), c)
    | none => (.ok e, c)
  | out => out

/-- The position after the last token, or after the text where it is known. -/
def stopOf (source : Option String) (ts : List Token) : Int :=
  match source with
  | some s => s.toList.length
  | none =>
    match ts.getLast? with
    | some t => t.stop
    | none => 0

/-- The grammar for given tokens. -/
def grammarFor (precedence : Precedence) (limits : Limits) (source : Option String)
    (ts : List Token) : Grammar :=
  ⟨precedence, limits, source, stopOf source ts⟩

/-- Parses all tokens as one expression. -/
def parse (precedence : Precedence) (limits : Limits) (source : Option String)
    (ts : List Token) : Outcome Expr :=
  let g := grammarFor precedence limits source ts
  checkTrailing g ts 0 (expression g ts {})

end Reckon.Parser
