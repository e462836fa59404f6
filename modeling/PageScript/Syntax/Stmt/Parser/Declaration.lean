import PageScript.Number.Integer
import PageScript.Syntax.Stmt.Parser.Block

/-!
# Syntax/Stmt/Parser/Declaration — variables, constants, procedures and classes

Where a declaration may stand depends on what encloses it: properties belong to classes, and
procedures and classes are not declared inside procedures.  `Enclosing` records what is open.
-/

namespace PageScript

/-- What encloses a statement. -/
structure Enclosing where
  /-- The statement is a member of a class. -/
  inClass : Bool
  /-- The statement is part of a procedure. -/
  inProcedure : Bool
deriving DecidableEq

namespace Parse

/-- The bound of an array dimension that a number is: an integer of at most 32 bits, without
sign. -/
def bound? (value : Float) : Option Nat :=
  match Number.binary value with
  | .finite negative significand exponent =>
    let whole := Number.roundHalfEven significand exponent
    if (!negative || significand = 0) && Number.truncate value == value && whole ≤ Span.limit then
      some whole
    else none
  | _ => none

/-- An array bound. -/
def arrayBound : Parse Nat := do
  match ← kind with
  | .number value =>
    match bound? value with
    | some n => do
      let _ ← advance
      pure n
    | none => expected "array bound"
  | _ => expected "array bound"

/-- A declared variable: a name, with bounds in parentheses if it is an array. -/
def declaredVariable (access : Access) : Parse Stmt := do
  let start ← span
  let name ← identifier
  let bounds ←
    if ← acceptSymbol .lparen then
      let bounds ←
        if (← kind).isSymbol .rparen then pure [] else commaList arrayBound
      let _ ← requireSymbol .rparen
      pure (some bounds)
    else pure none
  pure (.dim (start.merge (← previous)) name bounds access)

/-- Variables behind a word that started at a span, as one block. -/
def variableGroup (start : Span) (access : Access) : Parse Stmt := do
  let body ← commaList (declaredVariable access)
  pure (.block (start.merge (← previous)) body)

/-- A literal value, a number with at most one sign. -/
def literal : Parse Literal := do
  match ← kind with
  | .number _ | .symbol .minus | .symbol .plus => do
    let (value, _) ← signedNumber
    pure (.number value)
  | found =>
    match found.literal? with
    | some value => do
      let _ ← advance
      pure value
    | none => expected "literal"

/-- A declared constant. -/
def constant : Parse Stmt := do
  let start ← span
  let name ← identifier
  let _ ← requireSymbol .eq
  let value ← literal
  pure (.const (start.merge (← previous)) name value)

/-- Constants behind `const`; several make a block, a single one stands for itself. -/
def constantGroup (start : Span) : Parse Stmt := do
  let _ ← requireKeyword .constWord
  let found ← commaList constant
  let s := start.merge (← previous)
  match found with
  | [single] => pure (single.withSpan s)
  | body => pure (.block s body)

/-- An array with new bounds. -/
def resized (preserve : Bool) : Parse Stmt := do
  let start ← span
  let name ← identifier
  let _ ← requireSymbol .lparen
  let bounds ← commaList Expr.parse
  let _ ← requireSymbol .rparen
  pure (.redim (start.merge (← previous)) name bounds preserve)

/-- `redim`, as one block. -/
def redimStatement : Parse Stmt := do
  let start ← requireKeyword .reDimWord
  let preserve ← acceptWord "preserve"
  let body ← commaList (resized preserve)
  pure (.block (start.merge (← previous)) body)

/-- A parameter: passed by value unless `byref` says otherwise; empty parentheses behind the name
are allowed. -/
def parameter : Parse Param := do
  let byRef ← acceptKeyword .byRefWord
  if !byRef then
    let _ ← acceptKeyword .byValWord
  let name ← identifier
  let here ← get
  if here.kind.isSymbol .lparen && here.nextKind.isSymbol .rparen then
    let _ ← advance
    let _ ← advance
  pure ⟨name, byRef⟩

/-- The parameters of a procedure; none if there are no parentheses. -/
def parameters : Parse (List Param) := do
  if !(← acceptSymbol .lparen) then pure []
  else if ← acceptSymbol .rparen then pure []
  else
    let found ← commaList parameter
    let _ ← requireSymbol .rparen
    pure found

/-- Fails inside a procedure. -/
def outsideProcedure (around : Enclosing) : Parse Unit := do
  if around.inProcedure then
    failAt fun c => .nestedDeclaration (c.kind.reservedSpelling?.getD "procedure")
  else pure ()

/-- The statements of a procedure up to `end`, which is left. -/
def procedureBody (statement : Enclosing → Parse Stmt) : Parse (List Stmt) :=
  blockUntil (statement ⟨false, true⟩) [.endWord]

/-- A function or sub behind its modifiers, which started at a span. -/
def procedureFrom (statement : Enclosing → Parse Stmt) (around : Enclosing) (start : Span)
    (access : Access) : Parse Stmt := do
  outsideProcedure around
  let isSub ← acceptKeyword .subWord
  if !isSub then
    let _ ← requireKeyword .functionWord
  let name ← identifier
  let params ← parameters
  let body ← procedureBody statement
  let _ ← requireKeyword .endWord
  let _ ← requireKeyword (if isSub then .subWord else .functionWord)
  let form := if isSub then ProcedureForm.sub else .function
  pure (.procedure (start.merge (← previous)) (.mk name form params body access))

/-- The form of a property. -/
def propertyForm : Parse PropertyForm := do
  if ← acceptKeyword .setWord then pure .set
  else if ← acceptWord "get" then pure .get
  else if ← acceptWord "let" then pure .assign
  else expected "`get`, `let` or `set`"

/-- A property behind its modifiers, which started at a span. -/
def propertyFrom (statement : Enclosing → Parse Stmt) (around : Enclosing) (start : Span)
    (access : Access) (isDefault : Bool) : Parse Stmt := do
  if !around.inClass then failAt fun _ => .propertyOutsideClass
  else
    let _ ← requireKeyword .propertyWord
    let form ← propertyForm
    let name ← identifier
    let params ← parameters
    let body ← procedureBody statement
    let _ ← requireKeyword .endWord
    let _ ← requireKeyword .propertyWord
    let decl := Procedure.mk name .function params body access
    pure (.property (start.merge (← previous)) form decl isDefault)

/-- A declaration behind `public` or `private`. -/
def modifiedDeclaration (statement : Enclosing → Parse Stmt) (around : Enclosing) :
    Parse Stmt := do
  let start ← span
  let isPrivate ← acceptKeyword .privateWord
  if !isPrivate then
    let _ ← requireKeyword .publicWord
  let access := if isPrivate then Access.isPrivate else .isPublic
  let isDefault ← acceptWord "default"
  match ← kind with
  | .keyword .functionWord | .keyword .subWord => procedureFrom statement around start access
  | .keyword .propertyWord => propertyFrom statement around start access isDefault
  | found =>
    if isDefault then expected "`function` or `property`"
    else if found.isKeyword .constWord then constantGroup start
    else variableGroup start access

/-- The members of a class up to `end`, which is left, or the end of the page. -/
def members (statement : Parse Stmt) : (bound : Nat) → Parse (List Stmt)
  | 0 => pure []
  | bound + 1 => do
    dropSeparators
    let found ← kind
    if found.isEnd || found.isKeyword .endWord then pure []
    else
      let declares := [Keyword.dimWord, .publicWord, .privateWord, .constWord, .functionWord,
        .subWord, .propertyWord].any fun k => found.isKeyword k
      let first ← if declares then statement else expected "class member"
      statementEnd
      let further ← members statement bound
      pure (first :: further)

/-- `class` to `end class`. -/
def classStatement (statement : Enclosing → Parse Stmt) (around : Enclosing) : Parse Stmt := do
  outsideProcedure around
  let start ← requireKeyword .classWord
  let name ← identifier
  let body ← members (statement { around with inClass := true }) (← remaining)
  let _ ← requireKeyword .endWord
  let _ ← requireKeyword .classWord
  pure (.classDecl (start.merge (← previous)) name body)

end Parse

end PageScript
