import Reckon.Function
/-
  What happens while an engine works: texts are scanned, tokens parsed, settings changed,
  functions called. All but calls are written to a log; `Event.record?` is the line.
-/
namespace Reckon

/-- Something that happened. -/
inductive Event where
  | scanned (length tokens : Nat)
  | parsed (tokens nodes : Nat)
  | restarted (operators : List String) (bindings functions : Nat)
  | operatorsChanged (operators : List String)
  | precedenceChanged (precedence : Precedence)
  | operatorFunctionsChanged
  /-- Stored results were dropped, so many of them. -/
  | resultsDropped (count : Nat)
  | called (invocation : Invocation)

/-- A line of a log: who writes it, what happened, and details. -/
structure LogRecord where
  logger : String
  message : String
  details : List (String × Datum)

namespace Event

def texts (ss : List String) : Datum := .list (ss.map .str)

def number (n : Nat) : Datum := .int n

/-- The line that an event writes to the log. -/
def record? : Event → Option LogRecord
  | scanned length tokens =>
    some ⟨"mathparser.tokenizer", "expression_tokenized",
      [("expression_length", number length), ("token_count", number tokens)]⟩
  | parsed tokens nodes =>
    some ⟨"mathparser.parser", "expression_parsed",
      [("token_count", number tokens), ("node_count", number nodes)]⟩
  | restarted operators bindings functions =>
    some ⟨"mathparser.engine", "math_parser_reset",
      [("operators", texts operators), ("variable_count", number bindings),
        ("function_count", number functions)]⟩
  | operatorsChanged operators =>
    some ⟨"mathparser.engine", "operators_changed", [("operators", texts operators)]⟩
  | precedenceChanged precedence =>
    some ⟨"mathparser.engine", "precedence_levels_changed",
      [("unary", .dict precedence.shownUnary), ("binary", .dict precedence.shownBinary)]⟩
  | operatorFunctionsChanged => some ⟨"mathparser.engine", "operator_functions_changed", []⟩
  | resultsDropped count =>
    some ⟨"mathparser.engine", "result_cache_invalidated", [("entries", number count)]⟩
  | called _ => none

/-- The mark that an event leaves, if it is a call of a recording function. -/
def mark? : Event → Option (String × List Value)
  | called i => i.mark?
  | _ => none

end Event

end Reckon
