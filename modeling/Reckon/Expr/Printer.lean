import Reckon.Expr
import Reckon.Fault
/-
  Two texts of an expression tree: an expression with every application of an operator in
  parentheses, and an outline with one node a line. Only the outline has a text for nodes of
  unknown kind.
-/
namespace Reckon.Expr

/-- How a node of unknown kind is shown. -/
def unknownText (type : String) : String := "<Odd " ++ type ++ ">"

mutual
/-- The tree as an expression. Parentheses stand around every operator with its operands, so
the text does not depend on which operators bind tighter. -/
def toText : Expr → Except Fault String
  | constant text _ => .ok text
  | var name _ => .ok name
  | unary op e _ => do
    let e ← toText e
    .ok ("(" ++ op ++ " " ++ e ++ ")")
  | binary op l r _ => do
    let l ← toText l
    let r ← toText r
    .ok ("(" ++ l ++ " " ++ op ++ " " ++ r ++ ")")
  | call name args _ => do
    let args ← argTexts args
    .ok (name ++ "(" ++ String.intercalate ", " args ++ ")")
  | unknown type _ => .error (.notAnExpression (unknownText type))

def argTexts : List Expr → Except Fault (List String)
  | [] => .ok []
  | e :: es => do
    let e ← toText e
    let es ← argTexts es
    .ok (e :: es)
end

/-- Two blanks a level; a level below zero has none. -/
def indentation (level : Int) : String := String.ofList (List.replicate (2 * level).toNat ' ')

mutual
/-- The lines of the outline, the node itself at `level`. -/
def outlineLines (level : Int) : Expr → List String
  | constant text _ => [indentation level ++ "Constant: " ++ text]
  | var name _ => [indentation level ++ "Variable: " ++ name]
  | unary op e _ =>
    (indentation level ++ "UnaryOperator: " ++ op) :: outlineLines (level + 1) e
  | binary op l r _ =>
    (indentation level ++ "BinaryOperator: " ++ op)
      :: (outlineLines (level + 1) l ++ outlineLines (level + 1) r)
  | call name args _ =>
    (indentation level ++ "FunctionCall: " ++ name) :: outlineAll (level + 1) args
  | unknown type _ => [indentation level ++ "Unknown: " ++ unknownText type]

def outlineAll (level : Int) : List Expr → List String
  | [] => []
  | e :: es => outlineLines level e ++ outlineAll level es
end

/-- The outline of a tree. -/
def outline (e : Expr) (level : Int) : String := String.intercalate "\n" (outlineLines level e)

end Reckon.Expr
