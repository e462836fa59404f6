import PageScript.Syntax.Stmt.Parser.Block

/-!
# Syntax/Stmt/Parser/Simple — statements on one line

Assignments and calls, and the fixed forms `exit`, `option explicit` and `on error`.

A statement that starts with a name is read as a chain first.  An equals sign behind the chain makes
it an assignment; the end of the statement makes it a call; otherwise it is a call with arguments
not in parentheses.  If the chain then ends in parentheses, they belong to the first argument, and
reading goes back to before them.
-/

namespace PageScript.Parse

/-- The same argument, passed by value. -/
def keptByValue : Arg → Arg
  | .mk value _ => .mk value true

/-- A whole chain as a call.  A single argument in parentheses is passed by value, because the
parentheses belong to it. -/
def callOfChain (chain : Expr) (endsInArguments : Bool) : Expr :=
  match chain with
  | .call s callee [arg] => .call s callee [if endsInArguments then keptByValue arg else arg]
  | .call s callee args => .call s callee args
  | chain => .call chain.span chain []

/-- An assignment or a call that starts with a name. -/
def assignmentOrCall : Parse Stmt := do
  let head ← chainHead
  let (chain, opening) ← links Expr.parse (← remaining) head none
  if ← acceptSymbol .eq then
    let value ← Expr.parse
    pure (.assign (chain.span.merge value.span) chain value)
  else
    let found ← kind
    if found.endsStatement || found.isKeyword .elseWord then
      pure (.call chain.span (callOfChain chain opening.isSome))
    else
      let callee ← match chain, opening with
        | .call _ callee _, some before => do
          set before
          pure callee
        | chain, _ => pure chain
      let args ← commaList (argument Expr.parse)
      let s := callee.span.merge (← previous)
      pure (.call s (.call s callee args))

/-- An assignment behind `set` or `let`, which started at a span. -/
def assignmentFrom (start : Span) : Parse Stmt := do
  let head ← chainHead
  let (target, _) ← links Expr.parse (← remaining) head none
  let _ ← requireSymbol .eq
  let value ← Expr.parse
  pure (.assign (start.merge value.span) target value)

/-- An assignment behind the word at the cursor. -/
def markedAssignment : Parse Stmt := do
  assignmentFrom (← advance)

/-- A call behind `call`; a chain without arguments is called with none. -/
def callStatement : Parse Stmt := do
  let start ← advance
  let head ← chainHead
  let (chain, _) ← links Expr.parse (← remaining) head none
  let s := start.merge chain.span
  match chain with
  | .call _ callee args => pure (.call s (.call s callee args))
  | chain => pure (.call s (.call s chain []))

/-- `exit` with what it leaves. -/
def exitStatement : Parse Stmt := do
  let start ← requireKeyword .exitWord
  let leave (target : ExitTarget) : Parse Stmt := do
    let stop ← advance
    pure (.exit (start.merge stop) target)
  match ← kind with
  | .keyword .functionWord => leave .function
  | .keyword .subWord => leave .sub
  | .keyword .propertyWord => leave .property
  | .keyword .doWord => leave .doLoop
  | .keyword .forWord => leave .forLoop
  | _ => expected "`function`, `sub`, `property`, `do` or `for`"

/-- `option explicit`, switched on unless `off` follows. -/
def optionStatement : Parse Stmt := do
  let start ← requireKeyword .optionWord
  let _ ← requireWord "explicit"
  if ← acceptWord "off" then pure (.optionExplicit (start.merge (← previous)) false)
  else
    let _ ← acceptWord "on"
    pure (.optionExplicit (start.merge (← previous)) true)

/-- Whether a token is the number zero. -/
def isZero : TokenKind → Bool
  | .number value => value == 0
  | _ => false

/-- `on error resume next` or `on error goto 0`. -/
def onErrorStatement : Parse Stmt := do
  let start ← requireWord "on"
  let _ ← requireWord "error"
  if ← acceptWord "resume" then
    let _ ← requireKeyword .nextWord
    pure (.onError (start.merge (← previous)) .resumeNext)
  else
    let _ ← requireWord "goto"
    let _ ← require "`0`" isZero
    pure (.onError (start.merge (← previous)) .gotoZero)

end PageScript.Parse
