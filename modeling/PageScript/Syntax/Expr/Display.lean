import PageScript.Number.Text
import PageScript.Syntax.Expr.Basic

/-!
# Syntax/Expr/Display — expressions as bracketed trees

An expression is shown with its operator or kind in front, in brackets.  Spans and the by-value
marks of arguments are left out.
-/

namespace PageScript

/-- A literal as it stands in a tree. -/
def Literal.display : Literal → String
  | .string value => Text.quote value
  | .number value => Number.plain value
  | .boolean value => toString value
  | .empty => "empty"
  | .null => "null"
  | .nothing => "nothing"

mutual

/-- The bracketed tree of an expression. -/
def Expr.display : Expr → String
  | .literal _ value => value.display
  | .var _ name => name.text
  | .member _ object name => "(. " ++ object.display ++ " " ++ name.text ++ ")"
  | .withMember _ name => "(. " ++ name.text ++ ")"
  | .call _ callee args => "(call " ++ callee.display ++ Expr.displayArgs args ++ ")"
  | .create _ path => "(new " ++ String.intercalate "." (path.map Name.text) ++ ")"
  | .binary _ op left right =>
    "(" ++ op.spelling ++ " " ++ left.display ++ " " ++ right.display ++ ")"
  | .unary _ op operand => "(" ++ op.label ++ " " ++ operand.display ++ ")"

/-- Each argument with a space in front. -/
def Expr.displayArgs : List Arg → String
  | [] => ""
  | arg :: rest => " " ++ arg.display ++ Expr.displayArgs rest

/-- The tree of an argument. -/
def Arg.display : Arg → String
  | .mk value _ => value.display

end

end PageScript
