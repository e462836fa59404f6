import PageScript.Syntax.Expr.Basic

/-!
# Value/Fault — what stops a running script

A fault is a cause and, once it has left a statement, the bytes of the innermost statement that
failed.  No fault can be caught by a script.
-/

namespace PageScript

/-- The kinds of value. -/
inductive ValueKind where
  | string | number | boolean | empty | null | nothing | object | function
deriving DecidableEq

/-- The name of a kind of value. -/
def ValueKind.name : ValueKind → String
  | string => "String"
  | number => "Number"
  | boolean => "Boolean"
  | empty => "Empty"
  | null => "Null"
  | nothing => "Nothing"
  | object => "Object"
  | function => "Function"

/-- Why a script stops. -/
inductive Fault.Cause where
  /-- A name without variable where variables have to be declared. -/
  | undeclared (name : String)
  /-- A value of the wrong kind. -/
  | typeMismatch (context : String) (found : ValueKind)
  /-- A write to something that is read-only. -/
  | readonlyWrite (target : String)
  /-- A second declaration of a name. -/
  | redeclared (name : String)
  /-- A call with the wrong number of arguments. -/
  | arity (name : String) (expected got : Nat)
  /-- A statement or expression that is never carried out. -/
  | unsupported (feature : String)
  | divisionByZero (op : BinaryOp)
  | nullUse (operation : String)
  /-- Something other than an object where an object is needed. -/
  | objectRequired (name : String)
  | memberNotFound (member : String)
  /-- More nested calls than the limit. -/
  | stackOverflow (limit : Nat)
  /-- A failure that a host function reports. -/
  | host (message : String)
deriving DecidableEq

namespace Fault.Cause

/-- The message of a fault. -/
def message : Fault.Cause → String
  | undeclared name => "variable is undefined: '" ++ name ++ "'"
  | typeMismatch context found => "type mismatch: " ++ context ++ " (got " ++ found.name ++ ")"
  | readonlyWrite target => "cannot assign to read-only '" ++ target ++ "'"
  | redeclared name => "name redefined: '" ++ name ++ "'"
  | arity name expected got =>
    "wrong number of arguments to '" ++ name ++ "': expected " ++ toString expected ++ ", got "
      ++ toString got
  | unsupported feature => "not supported: " ++ feature
  | divisionByZero op => "division by zero in `" ++ op.spelling ++ "`"
  | nullUse operation => "invalid use of Null in " ++ operation
  | objectRequired name => "object required: '" ++ name ++ "'"
  | memberNotFound member => "object doesn't support member '" ++ member ++ "'"
  | stackOverflow limit => "out of stack space (call depth limit " ++ toString limit ++ ")"
  | host message => message

end Fault.Cause

/-- What stopped a script, and where. -/
structure Fault where
  cause : Fault.Cause
  /-- The innermost statement that failed, once the fault has left it. -/
  span : Option Span
deriving DecidableEq

namespace Fault

/-- A fault that has not left a statement yet. -/
def of (cause : Fault.Cause) : Fault := ⟨cause, none⟩

/-- The fault as it leaves a statement: an inner place that is already known stays. -/
def leaving (f : Fault) (s : Span) : Fault := { f with span := f.span.or (some s) }

/-- The message, without the place. -/
def message (f : Fault) : String := f.cause.message

end Fault

end PageScript
