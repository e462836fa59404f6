import PageScript.Syntax.Expr.Parser
import PageScript.Syntax.Stmt.Basic

/-!
# Syntax/Stmt/Parser/Block — lists of statements and pieces of a page

How statements follow one another, given a reader for a single one: in blocks that end before a
certain word, on one line behind `then`, and as literal page content.
-/

namespace PageScript.Parse

/-- Fails unless the statement just read is over. -/
def statementEnd : Parse Unit := do
  if (← kind).endsStatement then pure () else expected "end of statement"

/-- Statements up to a token that `stop` accepts, which is left, or the end of the page. -/
def statements (statement : Parse Stmt) (stop : TokenKind → Bool) :
    (bound : Nat) → Parse (List Stmt)
  | 0 => pure []
  | bound + 1 => do
    dropSeparators
    let found ← kind
    if found.isEnd || stop found then pure []
    else
      let first ← statement
      statementEnd
      let further ← statements statement stop bound
      pure (first :: further)

/-- Statements up to a token that `stop` accepts, which is left, or the end of the page. -/
def block (statement : Parse Stmt) (stop : TokenKind → Bool) : Parse (List Stmt) := do
  statements statement stop (← remaining)

/-- The statements up to one of some reserved words. -/
def blockUntil (statement : Parse Stmt) (words : List Keyword) : Parse (List Stmt) :=
  block statement fun found => words.any fun k => found.isKeyword k

/-- Statements on one line with colons in between; a colon at the end of the line is taken. -/
def lineStatements (statement : Parse Stmt) : (bound : Nat) → Parse (List Stmt)
  | 0 => do
    let first ← statement
    pure [first]
  | bound + 1 => do
    let first ← statement
    if ← acceptSymbol .colon then
      let found ← kind
      if found.endsStatement || found.isKeyword .elseWord then pure [first]
      else
        let further ← lineStatements statement bound
        pure (first :: further)
    else pure [first]

/-- Statements on one line. -/
def line (statement : Parse Stmt) : Parse (List Stmt) := do
  lineStatements statement (← remaining)

/-- The statement that writes a value to the response. -/
def writing (value : Expr) (s : Span) : Stmt :=
  let write := Expr.member s (.var s (Name.ofString "Response")) (Name.ofString "Write")
  .call s (.call s write [.mk value false])

/-- Literal page content: texts, include directives and printed expressions in a row. -/
def content : (bound : Nat) → Parse (List Stmt)
  | 0 => pure []
  | bound + 1 => do
    let start ← span
    match ← kind with
    | .text value => do
      let _ ← advance
      let further ← content bound
      pure (writing (.literal start (.string value)) start :: further)
    | .includeFile path isVirtual => do
      let _ ← advance
      let further ← content bound
      pure (.includeFile start ⟨path, isVirtual⟩ none :: further)
    | .openPrint => do
      let _ ← advance
      let value ← Expr.parse
      let closed ← accept fun found => match found with
        | .closeCode => true
        | _ => false
      if !closed && !(← kind).isEnd then expected "`%>`"
      else
        let s := start.merge (← previous)
        let further ← content bound
        pure (writing value s :: further)
    | _ => pure []

/-- A run of literal page content as one block. -/
def pageContent : Parse Stmt := do
  let start ← span
  let body ← content (← remaining)
  pure (.block (start.merge (← previous)) body)

end PageScript.Parse
