import PageScript.Syntax.Stmt.Parser.Control
import PageScript.Syntax.Stmt.Parser.Declaration
import PageScript.Syntax.Stmt.Parser.Simple
import PageScript.Token.Sequence

/-!
# Syntax/Stmt/Parser — reading programs

`Stmt.parseAt` reads one statement by its first token; statements inside it are read by the same
function with a smaller bound.  `programOfTokens?` reads a whole page.  Reading stops at the first
error.
-/

namespace PageScript

namespace Parse

/-- Reads one statement, with a reader for the statements inside it. -/
def statementWith (inner : Enclosing → Parse Stmt) (around : Enclosing) : Parse Stmt := do
  let here ← get
  match here.kind with
  | .text _ | .includeFile _ _ | .openPrint => pageContent
  | .ident name =>
    if name.isSpelled "on" && here.nextKind.isWord "error" then onErrorStatement
    else if name.isSpelled "let" && (match here.nextKind with | .ident _ => true | _ => false) then
      markedAssignment
    else assignmentOrCall
  | .symbol .dot => assignmentOrCall
  | .keyword k =>
    match k with
    | .dimWord => do variableGroup (← advance) .isPublic
    | .publicWord | .privateWord => modifiedDeclaration inner around
    | .constWord => do constantGroup (← span)
    | .reDimWord => redimStatement
    | .functionWord | .subWord => do procedureFrom inner around (← span) .isPublic
    | .propertyWord => do propertyFrom inner around (← span) .isPublic false
    | .classWord => classStatement inner around
    | .ifWord => ifStatement (inner around)
    | .whileWord => whileStatement (inner around)
    | .doWord => doStatement (inner around)
    | .forWord => forStatement (inner around)
    | .selectWord => selectStatement (inner around)
    | .withWord => withStatement (inner around)
    | .exitWord => exitStatement
    | .optionWord => optionStatement
    | .callWord => callStatement
    | .setWord => markedAssignment
    | _ => expected "statement"
  | _ => expected "statement"

end Parse

/-- Reads one statement.  The bound counts the tokens that are left; every statement takes one
before the statements inside it start. -/
def Stmt.parseAt : (bound : Nat) → Enclosing → Parse Stmt
  | 0, _ => Parse.exhausted
  | bound + 1, around => Parse.statementWith (fun around => Stmt.parseAt bound around) around

/-- Reads one statement. -/
def Stmt.parse (around : Enclosing) : Parse Stmt := do
  Stmt.parseAt (← Parse.remaining) around

/-- Reads the statements of a whole page. -/
def Parse.program : Parse (List Stmt) := do
  let bound ← remaining
  let body ← block (Stmt.parseAt bound ⟨false, false⟩) fun _ => false
  if (← kind).isEnd then pure body else expected "statement"

/-- The statements of a page. -/
def programOfTokens? (tokens : List Token) : Except SyntaxError (List Stmt) := do
  let (body, _) ← Parse.program (.start tokens)
  pure body

/-- The statements of a source that starts in a region. -/
def programOf? (region : Region) (source : String) : Except SyntaxError (List Stmt) :=
  programOfTokens? (tokensOf region source)

/-- The expression that a source of script code is. -/
def expressionOf? (region : Region) (source : String) : Except SyntaxError Expr :=
  Expr.ofTokens? (tokensOf region source)

end PageScript
