import PageScript.Name
import PageScript.Span

/-!
# Syntax/Expr/Basic — expressions of script code

The tree of an expression, every node with the bytes it was read from.  Operators carry their
binding strength: the table that the reader of expressions and their printer share.
-/

namespace PageScript

/-- A literal value. -/
inductive Literal where
  | string (value : String)
  | number (value : Float)
  | boolean (value : Bool)
  | empty
  | null
  | nothing

/-- The operators between two operands. -/
inductive BinaryOp where
  | add | sub | mul | div | intDiv | pow | mod | concat
  | eq | notEq | lt | ltEq | gt | gtEq
  | and | or | xor | is
deriving DecidableEq

/-- The operators in front of one operand. -/
inductive UnaryOp where
  | not | neg
deriving DecidableEq

namespace BinaryOp

/-- The spelling. -/
def spelling : BinaryOp → String
  | add => "+" | sub => "-" | mul => "*" | div => "/" | intDiv => "\\" | pow => "^" | mod => "mod"
  | concat => "&" | eq => "=" | notEq => "<>" | lt => "<" | ltEq => "<=" | gt => ">" | gtEq => ">="
  | and => "and" | or => "or" | xor => "xor" | is => "is"

/-- How strongly the operator binds; every level associates to the left. -/
def strength : BinaryOp → Nat
  | or => 0
  | and => 1
  | xor => 2
  | eq | notEq | lt | ltEq | gt | gtEq => 4
  | concat => 5
  | mod => 6
  | add | sub => 7
  | mul | div | intDiv => 8
  | pow => 10
  | is => 11

/-- Whether the operator compares; the right operand of a comparison may start with `not`. -/
def isComparison : BinaryOp → Bool
  | eq | notEq | lt | ltEq | gt | gtEq => true
  | _ => false

end BinaryOp

namespace UnaryOp

/-- The name of the operator in printed trees. -/
def label : UnaryOp → String
  | not => "not"
  | neg => "neg"

/-- How strongly the operator binds its operand. -/
def strength : UnaryOp → Nat
  | not => 3
  | neg => 9

end UnaryOp

/-- The level of an operand that no operator takes apart. -/
def BinaryOp.tightest : Nat := 12

mutual

/-- An expression. -/
inductive Expr where
  | literal (span : Span) (value : Literal)
  | var (span : Span) (name : Name)
  /-- A member of the value of an expression. -/
  | member (span : Span) (object : Expr) (name : Name)
  /-- A member of the object of the enclosing `with` block. -/
  | withMember (span : Span) (name : Name)
  | call (span : Span) (callee : Expr) (args : List Arg)
  | create (span : Span) (path : List Name)
  | binary (span : Span) (op : BinaryOp) (left right : Expr)
  | unary (span : Span) (op : UnaryOp) (operand : Expr)

/-- An argument of a call.  `byValue` records that it was written as one parenthesized expression,
which keeps the callee from writing to it. -/
inductive Arg where
  | mk (value : Expr) (byValue : Bool)

end

namespace Arg

/-- The expression of an argument. -/
def value : Arg → Expr
  | mk value _ => value

/-- Whether the argument is passed by value wherever it goes. -/
def byValue : Arg → Bool
  | mk _ byValue => byValue

end Arg

namespace Expr

/-- The bytes that the expression was read from. -/
def span : Expr → Span
  | literal s _ | var s _ | member s _ _ | withMember s _ | call s _ _ | create s _
  | binary s _ _ _ | unary s _ _ => s

/-- The same expression read from other bytes. -/
def withSpan (s : Span) : Expr → Expr
  | literal _ v => literal s v
  | var _ n => var s n
  | member _ o n => member s o n
  | withMember _ n => withMember s n
  | call _ f as => call s f as
  | create _ p => create s p
  | binary _ op l r => binary s op l r
  | unary _ op e => unary s op e

/-- An operator between two operands, from the start of the left to the end of the right one. -/
def join (op : BinaryOp) (left right : Expr) : Expr :=
  binary (left.span.merge right.span) op left right

/-- Whether the expression denotes a place: a variable, a member or the result of a call. -/
def isPlace : Expr → Bool
  | var .. | member .. | withMember .. | call .. => true
  | _ => false

/-- Whether the expression is a bare reference: a variable or a member that is not applied. -/
def isReference : Expr → Bool
  | var .. | member .. | withMember .. => true
  | _ => false

@[simp] theorem span_withSpan (s : Span) (e : Expr) : (e.withSpan s).span = s := by
  cases e <;> rfl

end Expr

end PageScript
