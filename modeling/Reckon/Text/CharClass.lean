/-
  Character classes of expression text. Every class is a set of ASCII characters: a letter,
  digit or blank of another script belongs to none of them, so expressions in other scripts
  can only enter through operators.
-/
namespace Reckon

/-- The classes that the scanner asks about. -/
inductive CharClass where
  | whitespace
  | digit
  | hexDigit
  | identifierStart
  | identifierPart
  | sign
  | exponentMarker
  | hexMarker
  | parenthesis
  deriving DecidableEq, Repr

namespace CharClass

/-- Space, tab, line feed, carriage return, form feed and vertical tab. -/
def isWhitespace (c : Char) : Bool :=
  c == ' ' || c == '\t' || c == '\n' || c == '\r' || c == '\x0c' || c == '\x0b'

def isHexDigit (c : Char) : Bool :=
  c.isDigit || ('a' ≤ c && c ≤ 'f') || ('A' ≤ c && c ≤ 'F')

def isIdentifierStart (c : Char) : Bool := c.isAlpha || c == '_'

def isIdentifierPart (c : Char) : Bool := c.isAlpha || c == '_' || c.isDigit

def isSign (c : Char) : Bool := c == '+' || c == '-'

def isExponentMarker (c : Char) : Bool := c == 'e' || c == 'E'

def isHexMarker (c : Char) : Bool := c == 'x' || c == 'X'

def isParenthesis (c : Char) : Bool := c == '(' || c == ')'

/-- Membership of a character in a class. -/
def has : CharClass → Char → Bool
  | .whitespace => isWhitespace
  | .digit => Char.isDigit
  | .hexDigit => isHexDigit
  | .identifierStart => isIdentifierStart
  | .identifierPart => isIdentifierPart
  | .sign => isSign
  | .exponentMarker => isExponentMarker
  | .hexMarker => isHexMarker
  | .parenthesis => isParenthesis

/-- All classes, in the order in which a character's classes are listed. -/
def all : List CharClass :=
  [.whitespace, .digit, .hexDigit, .identifierStart, .identifierPart, .sign, .exponentMarker,
    .hexMarker, .parenthesis]

theorem mem_all (k : CharClass) : k ∈ all := by cases k <;> decide

/-- The word for a class. -/
def label : CharClass → String
  | .whitespace => "whitespace"
  | .digit => "digit"
  | .hexDigit => "hex_digit"
  | .identifierStart => "identifier_start"
  | .identifierPart => "identifier_part"
  | .sign => "sign"
  | .exponentMarker => "exponent_marker"
  | .hexMarker => "hex_marker"
  | .parenthesis => "parenthesis"

/-- The classes that a character belongs to. -/
def classesOf (c : Char) : List CharClass := all.filter (·.has c)

/-- The members of a class among the code points from `low` up to, not including, `high`. -/
def membersBetween (k : CharClass) (low high : Nat) : List Nat :=
  (List.range' low (high - low)).filter fun n => k.has (Char.ofNat n)

end CharClass

end Reckon
