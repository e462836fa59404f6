import PageScript.Syntax.Stmt.Parser.Block

/-!
# Syntax/Stmt/Parser/Control — branches, loops and blocks with an end word

Each reader takes the reader of a single statement for the bodies.
-/

namespace PageScript.Parse

/-- The bodies of a branch up to `end`, which is left.  An `elseif` is a branch of its own as the
only statement of the `else` body. -/
def branches (statement : Parse Stmt) : (bound : Nat) → Parse (List Stmt × List Stmt)
  | 0 => pure ([], [])
  | bound + 1 => do
    let thenBody ← blockUntil statement [.elseIfWord, .elseWord, .endWord]
    match ← kind with
    | .keyword .elseIfWord => do
      let start ← advance
      let cond ← Expr.parse
      let _ ← requireKeyword .thenWord
      let (innerThen, innerElse) ← branches statement bound
      let s := start.merge (← previous)
      pure (thenBody, [.branch s cond innerThen innerElse])
    | .keyword .elseWord => do
      let _ ← advance
      let elseBody ← blockUntil statement [.endWord]
      pure (thenBody, elseBody)
    | _ => pure (thenBody, [])

/-- `if`, on one line or in a block. -/
def ifStatement (statement : Parse Stmt) : Parse Stmt := do
  let start ← requireKeyword .ifWord
  let cond ← Expr.parse
  let _ ← requireKeyword .thenWord
  if (← kind).endsStatement then
    let (thenBody, elseBody) ← branches statement (← remaining)
    let _ ← requireKeyword .endWord
    let _ ← requireKeyword .ifWord
    pure (.branch (start.merge (← previous)) cond thenBody elseBody)
  else
    let thenBody ← line statement
    let elseBody ← if ← acceptKeyword .elseWord then line statement else pure []
    pure (.branch (start.merge (← previous)) cond thenBody elseBody)

/-- `while` to `wend`. -/
def whileStatement (statement : Parse Stmt) : Parse Stmt := do
  let start ← requireKeyword .whileWord
  let cond ← Expr.parse
  let body ← blockUntil statement [.wendWord]
  let _ ← requireKeyword .wendWord
  pure (.loop (start.merge (← previous)) cond body false false)

/-- The condition of a `do` loop, if one stands here, and whether it ends the loop by holding. -/
def loopCondition : Parse (Option (Expr × Bool)) := do
  if ← acceptKeyword .whileWord then
    let cond ← Expr.parse
    pure (some (cond, false))
  else if ← acceptKeyword .untilWord then
    let cond ← Expr.parse
    pure (some (cond, true))
  else pure none

/-- `do` to `loop`, with a condition at one end at most; without one the loop goes on. -/
def doStatement (statement : Parse Stmt) : Parse Stmt := do
  let start ← requireKeyword .doWord
  let before ← loopCondition
  let body ← blockUntil statement [.loopWord]
  let _ ← requireKeyword .loopWord
  match before with
  | some (cond, untilTrue) =>
    pure (.loop (start.merge (← previous)) cond body untilTrue false)
  | none =>
    let behind ← loopCondition
    let s := start.merge (← previous)
    match behind with
    | some (cond, untilTrue) => pure (.loop s cond body untilTrue true)
    | none => pure (.loop s (.literal start (.boolean true)) body false false)

/-- The body of a `for` loop through `next`, which may repeat the variable. -/
def countedBody (statement : Parse Stmt) : Parse (List Stmt) := do
  let body ← blockUntil statement [.nextWord]
  let _ ← requireKeyword .nextWord
  let _ ← accept fun found => match found with
    | .ident _ => true
    | _ => false
  pure body

/-- `for`, over numbers or `each` member of a collection. -/
def forStatement (statement : Parse Stmt) : Parse Stmt := do
  let start ← requireKeyword .forWord
  if ← acceptKeyword .eachWord then
    let var ← identifier
    let _ ← requireWord "in"
    let collection ← Expr.parse
    let body ← countedBody statement
    pure (.forEach (start.merge (← previous)) var collection body)
  else
    let var ← identifier
    let _ ← requireSymbol .eq
    let first ← Expr.parse
    let _ ← requireKeyword .toWord
    let last ← Expr.parse
    let step ←
      if ← acceptWord "step" then Expr.parse else pure (.literal last.span (.number 1))
    let body ← countedBody statement
    pure (.count (start.merge (← previous)) var first last step body)

/-- The cases of a `select` statement up to `end`, which is left, or the end of the page. -/
def cases (statement : Parse Stmt) : (bound : Nat) → Parse (List Case)
  | 0 => pure []
  | bound + 1 => do
    dropSeparators
    let found ← kind
    if found.isKeyword .endWord || found.isEnd then pure []
    else
      let _ ← requireKeyword .caseWord
      let conditions ←
        if ← acceptKeyword .elseWord then pure none else some <$> commaList Expr.parse
      let body ← blockUntil statement [.caseWord, .endWord]
      let further ← cases statement bound
      pure (.mk conditions body :: further)

/-- `select case` to `end select`. -/
def selectStatement (statement : Parse Stmt) : Parse Stmt := do
  let start ← requireKeyword .selectWord
  let _ ← requireKeyword .caseWord
  let subject ← Expr.parse
  let found ← cases statement (← remaining)
  let _ ← requireKeyword .endWord
  let _ ← requireKeyword .selectWord
  pure (.select (start.merge (← previous)) subject found)

/-- `with` to `end with`. -/
def withStatement (statement : Parse Stmt) : Parse Stmt := do
  let start ← requireKeyword .withWord
  let object ← Expr.parse
  let body ← blockUntil statement [.endWord]
  let _ ← requireKeyword .endWord
  let _ ← requireKeyword .withWord
  pure (.withObject (start.merge (← previous)) object body)

end PageScript.Parse
