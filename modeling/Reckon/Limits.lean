/-
  Limits on expressions, which bound the work that an expression can cause.
-/
namespace Reckon

/-- How long, how deep and how large an expression may be. A negative limit admits nothing. -/
structure Limits where
  /-- Characters of an expression. -/
  expressionLength : Int := 4096
  /-- Groups, arguments, prefix operators and right operands inside one another. -/
  nestingDepth : Int := 64
  /-- Nodes of an expression tree. -/
  nodes : Int := 512
  /-- Arguments of a call. -/
  arguments : Int := 32
  deriving DecidableEq, Repr, Inhabited

/-- The limits, one by one. -/
inductive Limit where
  | expressionLength
  | nestingDepth
  | nodes
  | arguments
  deriving DecidableEq, Repr

namespace Limit

/-- The word for a limit. -/
def label : Limit → String
  | .expressionLength => "max_expression_length"
  | .nestingDepth => "max_nesting_depth"
  | .nodes => "max_ast_nodes"
  | .arguments => "max_function_args"

/-- The bound that some limits set. -/
def bound (l : Limits) : Limit → Int
  | .expressionLength => l.expressionLength
  | .nestingDepth => l.nestingDepth
  | .nodes => l.nodes
  | .arguments => l.arguments

end Limit

end Reckon
