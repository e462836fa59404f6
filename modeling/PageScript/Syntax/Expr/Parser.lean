import PageScript.Syntax.Cursor
import PageScript.Syntax.Expr.Basic

/-!
# Syntax/Expr/Parser — reading expressions

Expressions are read by binding strength.  `Expr.parseAt` reads the longest expression whose outer
operators bind at least as strongly as a given level: first an operand, then operators of that
level or above, each with a right operand of the next level, which makes every level associate to
the left.  The levels are those of `BinaryOp.strength` and `UnaryOp.strength`.

The functions that recurse count down from the number of tokens left.  Every recursive step follows
a token that was taken, so the count never runs out before the tokens do; if it did, that would be a
cause of its own (`SyntaxError.Cause.exhausted`).
-/

namespace PageScript

/-- The operator that a token is between two operands. -/
def TokenKind.binaryOp? : TokenKind → Option BinaryOp
  | .symbol .plus => some .add
  | .symbol .minus => some .sub
  | .symbol .star => some .mul
  | .symbol .slash => some .div
  | .symbol .backslash => some .intDiv
  | .symbol .caret => some .pow
  | .symbol .amp => some .concat
  | .symbol .eq => some .eq
  | .symbol .notEq => some .notEq
  | .symbol .lt => some .lt
  | .symbol .ltEq => some .ltEq
  | .symbol .gt => some .gt
  | .symbol .gtEq => some .gtEq
  | .keyword .modWord => some .mod
  | .keyword .andWord => some .and
  | .keyword .orWord => some .or
  | .keyword .xorWord => some .xor
  | .keyword .isWord => some .is
  | _ => none

/-- The literal that a single token is. -/
def TokenKind.literal? : TokenKind → Option Literal
  | .number value => some (.number value)
  | .string value => some (.string value)
  | .keyword .trueWord => some (.boolean true)
  | .keyword .falseWord => some (.boolean false)
  | .keyword .emptyWord => some .empty
  | .keyword .nullWord => some .null
  | .keyword .nothingWord => some .nothing
  | _ => none

namespace Parse

/-- A number behind at most one sign, with its span from the sign on. -/
def signedNumber : Parse (Float × Span) := do
  let start ← span
  let number (apply : Float → Float) : Parse (Float × Span) := do
    match ← kind with
    | .number value => do
      let stop ← advance
      pure (apply value, start.merge stop)
    | _ => expected "number"
  if ← acceptSymbol .minus then number (- ·)
  else if ← acceptSymbol .plus then number id
  else number id

/-- A name, or the name of a member of the `with` object behind a point. -/
def chainHead : Parse Expr := do
  let start ← span
  match ← kind with
  | .ident name => do
    let _ ← advance
    pure (.var start name)
  | .symbol .dot => do
    let _ ← advance
    let name ← memberName
    pure (.withMember (start.merge (← previous)) name)
  | _ => expected "identifier"

/-- An argument: an expression, marked if it is one pair of parentheses and what they hold. -/
def argument (expression : Parse Expr) : Parse Arg := do
  let first ← get
  let value ← expression
  let last ← get
  pure (.mk value (first.isParenthesized last))

/-- The links behind the head of a chain: a point that touches what is before it, with a member
name, or arguments in parentheses.  If the last link is arguments, the cursor before their opening
parenthesis comes with the chain. -/
def links (expression : Parse Expr) :
    (bound : Nat) → Expr → Option Cursor → Parse (Expr × Option Cursor)
  | 0, chain, opening => pure (chain, opening)
  | bound + 1, chain, opening => do
    let here ← get
    match here.kind with
    | .symbol .dot =>
      if here.isAdjacent then
        let _ ← advance
        let name ← memberName
        let s := chain.span.merge (← previous)
        links expression bound (.member s chain name) none
      else pure (chain, opening)
    | .symbol .lparen => do
      let _ ← advance
      let inside ← get
      let args ←
        if inside.kind.isSymbol .rparen && inside.isAdjacent then pure []
        else commaList (argument expression)
      let _ ← requireSymbol .rparen
      let s := chain.span.merge (← previous)
      links expression bound (.call s chain args) (some here)
    | _ => pure (chain, opening)

/-- The dotted path behind `new`. -/
def createdPath : (bound : Nat) → Parse (List Name)
  | 0 => pure []
  | bound + 1 => do
    if ← acceptSymbol .dot then
      let name ← memberName
      let further ← createdPath bound
      pure (name :: further)
    else pure []

/-- An operand that no operator takes apart: a literal, a signed number, a `new` expression, an
expression in parentheses or a chain. -/
def primary (expression : Parse Expr) (bound : Nat) : Parse Expr := do
  let start ← span
  let found ← kind
  match found.literal? with
  | some value => do
    let _ ← advance
    pure (.literal start value)
  | none =>
    match found with
    | .symbol .minus | .symbol .plus => do
      let (value, s) ← signedNumber
      pure (.literal s (.number value))
    | .keyword .newWord => do
      let _ ← advance
      let first ← identifier
      let further ← createdPath bound
      pure (.create (start.merge (← previous)) (first :: further))
    | .symbol .lparen => do
      let _ ← advance
      let inner ← expression
      let _ ← requireSymbol .rparen
      let (chain, _) ← links expression bound (inner.withSpan (start.merge (← previous))) none
      pure chain
    | .ident _ | .symbol .dot => do
      let head ← chainHead
      let (chain, _) ← links expression bound head none
      pure chain
    | _ => expected "expression"

/-- The level at which the operand of a sign is read: a sign in front of a power covers the power,
a sign in front of a right operand covers that operand only. -/
def signedLevel (level : Nat) : Nat :=
  if level ≤ UnaryOp.neg.strength then UnaryOp.neg.strength else BinaryOp.tightest

/-- The first operand of an expression of a level.  `not` is read only where it does not bind too
loosely; a sign directly before a number belongs to the number. -/
def firstOperand (operand : Nat → Parse Expr) (bound level : Nat) : Parse Expr := do
  let here ← get
  let isNumber := match here.nextKind with
    | .number _ => true
    | _ => false
  match here.kind with
  | .keyword .notWord =>
    if level ≤ UnaryOp.not.strength then
      let start ← advance
      let e ← operand UnaryOp.not.strength
      pure (.unary (start.merge e.span) .not e)
    else primary (operand 0) bound
  | .symbol .minus =>
    if isNumber then primary (operand 0) bound
    else
      let start ← advance
      let e ← operand (signedLevel level)
      pure (.unary (start.merge e.span) .neg e)
  | .symbol .plus =>
    if isNumber then primary (operand 0) bound
    else
      let _ ← advance
      operand (signedLevel level)
  | _ => primary (operand 0) bound

/-- The right operand of an operator: of the next level, except that `not` behind a comparison
takes in the rest of it. -/
def rightOperand (operand : Nat → Parse Expr) (op : BinaryOp) : Parse Expr := do
  if op.isComparison && (← kind).isKeyword .notWord then operand UnaryOp.not.strength
  else operand (op.strength + 1)

/-- Joins further operands to an expression while operators of the level or above follow. -/
def extend (operand : Nat → Parse Expr) (level : Nat) : (bound : Nat) → Expr → Parse Expr
  | 0, left => pure left
  | bound + 1, left => do
    match (← kind).binaryOp? with
    | some op =>
      if level ≤ op.strength then
        let _ ← advance
        let right ← rightOperand operand op
        extend operand level bound (Expr.join op left right)
      else pure left
    | none => pure left

end Parse

/-- Reads an expression whose outer operators bind at least as strongly as `level`. -/
def Expr.parseAt : (bound level : Nat) → Parse Expr
  | 0, _ => Parse.exhausted
  | bound + 1, level => do
    let first ← Parse.firstOperand (fun l => Expr.parseAt bound l) bound level
    Parse.extend (fun l => Expr.parseAt bound l) level bound first

/-- Reads an expression. -/
def Expr.parse : Parse Expr := do
  Expr.parseAt (← Parse.remaining) 0

/-- Reads the tokens of a source that holds one expression and nothing else. -/
def Expr.ofTokens? (tokens : List Token) : Except SyntaxError Expr := do
  let whole : Parse Expr := do
    let e ← Expr.parse
    if (← Parse.kind).isEnd then pure e else Parse.expected "end of expression"
  let (e, _) ← whole (.start tokens)
  pure e

end PageScript
