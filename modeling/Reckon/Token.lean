/-
  Tokens: the words of an expression.
-/
namespace Reckon

/-- The kinds of tokens. -/
inductive Token.Kind where
  | constant
  | identifier
  | parenthesis
  | operator
  | comma
  deriving DecidableEq, Repr

/-- A token with its text and the position at which it starts. -/
structure Token where
  kind : Token.Kind
  text : String
  position : Int
  deriving DecidableEq, Repr

namespace Token

/-- The word for a kind of tokens. -/
def Kind.label : Kind → String
  | .constant => "Constant"
  | .identifier => "Variable"
  | .parenthesis => "Parentheses"
  | .operator => "Operator"
  | .comma => "Comma"

/-- All kinds. -/
def Kind.all : List Kind := [.constant, .identifier, .parenthesis, .operator, .comma]

theorem Kind.mem_all (k : Kind) : k ∈ all := by cases k <;> decide

def isOpening (t : Token) : Bool := t.kind == .parenthesis && t.text == "("

def isClosing (t : Token) : Bool := t.kind == .parenthesis && t.text == ")"

/-- The position after a token. -/
def stop (t : Token) : Int := t.position + t.text.toList.length

/-- A token further on by `offset` characters. -/
def shift (offset : Int) (t : Token) : Token := { t with position := t.position + offset }

end Token

end Reckon
