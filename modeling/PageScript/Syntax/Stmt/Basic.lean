import PageScript.Syntax.Expr.Basic

/-!
# Syntax/Stmt/Basic — statements of script code

The tree of a program: lists of statements, each with the bytes it was read from.  Literal page
content is part of it, as calls that write and as include directives, whose files are attached once
they are found.
-/

namespace PageScript

/-- Whether a declaration is visible outside its class or script. -/
inductive Access where
  | isPublic | isPrivate
deriving DecidableEq

/-- The two forms of procedure. -/
inductive ProcedureForm where
  | function | sub
deriving DecidableEq

/-- The three forms of property. -/
inductive PropertyForm where
  | get | assign | set
deriving DecidableEq

/-- A parameter of a procedure. -/
structure Param where
  name : Name
  /-- Whether the parameter is the caller's own variable. -/
  byRef : Bool
deriving DecidableEq

/-- What an `exit` statement leaves. -/
inductive ExitTarget where
  | function | sub | property | doLoop | forLoop
deriving DecidableEq

/-- The two forms of error handling. -/
inductive ErrorPolicy where
  | resumeNext | gotoZero
deriving DecidableEq

/-- An include directive: the path as written, and whether it counts from the document root. -/
structure Include where
  path : String
  isVirtual : Bool
deriving DecidableEq

mutual

/-- A statement. -/
inductive Stmt where
  | block (span : Span) (body : List Stmt)
  | assign (span : Span) (target value : Expr)
  /-- A call for its effect; the expression is a call. -/
  | call (span : Span) (call : Expr)
  | const (span : Span) (name : Name) (value : Literal)
  /-- A variable; `bounds` is there if it was declared with parentheses. -/
  | dim (span : Span) (name : Name) (bounds : Option (List Nat)) (access : Access)
  | redim (span : Span) (name : Name) (bounds : List Expr) (preserve : Bool)
  | procedure (span : Span) (decl : Procedure)
  | classDecl (span : Span) (name : Name) (members : List Stmt)
  | property (span : Span) (kind : PropertyForm) (decl : Procedure) (isDefault : Bool)
  | branch (span : Span) (cond : Expr) (thenBody elseBody : List Stmt)
  /-- A conditional loop: `untilTrue` ends it when the condition holds instead of when it fails,
  `testsAfter` tests it behind the body only. -/
  | loop (span : Span) (cond : Expr) (body : List Stmt) (untilTrue testsAfter : Bool)
  | count (span : Span) (var : Name) (first last step : Expr) (body : List Stmt)
  | forEach (span : Span) (var : Name) (collection : Expr) (body : List Stmt)
  | select (span : Span) (subject : Expr) (cases : List Case)
  | withObject (span : Span) (object : Expr) (body : List Stmt)
  | exit (span : Span) (kind : ExitTarget)
  | onError (span : Span) (kind : ErrorPolicy)
  | optionExplicit (span : Span) (on : Bool)
  /-- An include directive with the statements of its file, once they are attached. -/
  | includeFile (span : Span) (directive : Include) (attached : Option (List Stmt))

/-- A case of a `select` statement; `case else` has no conditions. -/
inductive Case where
  | mk (conditions : Option (List Expr)) (body : List Stmt)

/-- A procedure: a function, a sub or the accessor of a property. -/
inductive Procedure where
  | mk (name : Name) (kind : ProcedureForm) (params : List Param) (body : List Stmt)
    (access : Access)

end

instance : Inhabited Stmt := ⟨.block default []⟩

namespace Procedure

/-- The name that the procedure is declared under. -/
def name : Procedure → Name
  | mk name .. => name

/-- Whether the procedure is a function or a sub. -/
def kind : Procedure → ProcedureForm
  | mk _ kind .. => kind

/-- The parameters, in order. -/
def params : Procedure → List Param
  | mk _ _ params .. => params

/-- The statements that a call runs. -/
def body : Procedure → List Stmt
  | mk _ _ _ body _ => body

/-- Whether the procedure is visible outside its class or script. -/
def access : Procedure → Access
  | mk _ _ _ _ access => access

end Procedure

namespace Case

/-- The values that select the case; `none` selects always. -/
def conditions : Case → Option (List Expr)
  | mk conditions _ => conditions

/-- The statements of the case. -/
def body : Case → List Stmt
  | mk _ body => body

end Case

/-- The word for what an `exit` statement leaves. -/
def ExitTarget.word : ExitTarget → String
  | function => "function"
  | sub => "sub"
  | property => "property"
  | doLoop => "do"
  | forLoop => "for"

namespace Stmt

/-- The bytes that the statement was read from. -/
def span : Stmt → Span
  | block s .. | assign s .. | call s .. | const s .. | dim s .. | redim s .. | procedure s ..
  | classDecl s .. | property s .. | branch s .. | loop s .. | count s .. | forEach s ..
  | select s .. | withObject s .. | exit s .. | onError s .. | optionExplicit s ..
  | includeFile s .. => s

/-- The same statement read from other bytes. -/
def withSpan (s : Span) : Stmt → Stmt
  | block _ body => block s body
  | assign _ target value => assign s target value
  | call _ e => call s e
  | const _ name value => const s name value
  | dim _ name bounds access => dim s name bounds access
  | redim _ name bounds preserve => redim s name bounds preserve
  | procedure _ decl => procedure s decl
  | classDecl _ name members => classDecl s name members
  | property _ kind decl isDefault => property s kind decl isDefault
  | branch _ cond thenBody elseBody => branch s cond thenBody elseBody
  | loop _ cond body untilTrue testsAfter => loop s cond body untilTrue testsAfter
  | count _ var first last step body => count s var first last step body
  | forEach _ var collection body => forEach s var collection body
  | select _ subject cases => select s subject cases
  | withObject _ object body => withObject s object body
  | exit _ kind => exit s kind
  | onError _ kind => onError s kind
  | optionExplicit _ on => optionExplicit s on
  | includeFile _ directive attached => includeFile s directive attached

@[simp] theorem span_withSpan (s : Span) (stmt : Stmt) : (stmt.withSpan s).span = s := by
  cases stmt <;> rfl

end Stmt

end PageScript
