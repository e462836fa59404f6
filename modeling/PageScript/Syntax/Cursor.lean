import PageScript.Token.Basic

/-!
# Syntax/Cursor — reading a sequence of tokens

A cursor is the tokens that are left and the span of the last one taken.  A reader (`Parse`) moves
the cursor on or fails with a `SyntaxError`, which names the token it stopped at.  The cursor stays
on the token that ends the page.
-/

namespace PageScript

/-- Why a page is no program. -/
inductive SyntaxError.Cause where
  /-- Something else should stand where a token was found. -/
  | expected (item : String) (found : TokenKind)
  /-- A property declared outside a class. -/
  | propertyOutsideClass
  /-- A procedure or class declared inside a procedure, with the word that starts it. -/
  | nestedDeclaration (word : String)
  /-- The bound on how deep statements and expressions nest was reached. -/
  | exhausted

/-- The first place where a page is no program. -/
structure SyntaxError where
  cause : SyntaxError.Cause
  span : Span

namespace SyntaxError

/-- The message of an error, without its place. -/
def message (e : SyntaxError) : String :=
  match e.cause with
  | .expected item found => "expected " ++ item ++ ", found " ++ found.describe
  | .propertyOutsideClass => "`property` is only allowed inside a class"
  | .nestedDeclaration word => "`" ++ word ++ "` cannot be declared inside a procedure"
  | .exhausted => "nested too deep"

end SyntaxError

/-- A place in a sequence of tokens. -/
structure Cursor where
  /-- The tokens that are left. -/
  rest : List Token
  /-- The span of the last token taken. -/
  previous : Span

namespace Cursor

/-- The place before the first token. -/
def start (tokens : List Token) : Cursor := ⟨tokens, Span.origin⟩

/-- The kind of the token at the cursor. -/
def kind (c : Cursor) : TokenKind :=
  match c.rest with
  | token :: _ => token.kind
  | [] => .endOfPage

/-- The span of the token at the cursor. -/
def span (c : Cursor) : Span :=
  match c.rest with
  | token :: _ => token.span
  | [] => Span.point c.previous.stop

/-- Whether the token at the cursor touches the one before it. -/
def isAdjacent (c : Cursor) : Bool :=
  match c.rest with
  | token :: _ => token.adjacent
  | [] => false

/-- The kind of the token behind the one at the cursor. -/
def nextKind (c : Cursor) : TokenKind :=
  match c.rest with
  | _ :: token :: _ => token.kind
  | _ => .endOfPage

/-- The place behind the token at the cursor; the end of the page is never passed. -/
def advance (c : Cursor) : Cursor :=
  match c.rest with
  | token :: rest => if token.kind.isEnd then c else ⟨rest, token.span⟩
  | [] => c

/-- The place behind any separators at the front of the tokens. -/
def dropSeparatorsFrom (previous : Span) : List Token → Cursor
  | token :: rest =>
    if token.kind.isSeparator && !token.kind.isEnd then dropSeparatorsFrom token.span rest
    else ⟨token :: rest, previous⟩
  | [] => ⟨[], previous⟩

/-- The tokens behind the parenthesis that closes the `depth` ones still open, if one does so on
this line and in this code region. -/
def afterClosing? : Nat → List Token → Option (List Token)
  | _, [] => none
  | depth, token :: rest =>
    match token.kind with
    | .symbol .lparen => afterClosing? (depth + 1) rest
    | .symbol .rparen =>
      match depth with
      | 0 => none
      | 1 => some rest
      | depth + 2 => afterClosing? (depth + 1) rest
    | .lineBreak | .closeCode | .endOfPage => none
    | _ => afterClosing? depth rest

/-- Whether the tokens from one place to another are exactly one pair of parentheses and what
stands between them. -/
def isParenthesized (first last : Cursor) : Bool :=
  first.kind.isSymbol .lparen &&
    match afterClosing? 0 first.rest with
    | some rest => rest.length == last.rest.length
    | none => false

end Cursor

/-- A reader of tokens. -/
abbrev Parse (α : Type) : Type := StateT Cursor (Except SyntaxError) α

namespace Parse

/-- The kind of the token at the cursor. -/
def kind : Parse TokenKind := fun c => .ok (c.kind, c)

/-- The span of the token at the cursor. -/
def span : Parse Span := fun c => .ok (c.span, c)

/-- The span of the last token taken. -/
def previous : Parse Span := fun c => .ok (c.previous, c)

/-- The number of tokens left, which bounds every loop from here. -/
def remaining : Parse Nat := fun c => .ok (c.rest.length, c)

/-- Fails with a cause at the token at the cursor. -/
def failAt (cause : Cursor → SyntaxError.Cause) : Parse α := fun c => .error ⟨cause c, c.span⟩

/-- Fails because something else should stand at the cursor. -/
def expected (item : String) : Parse α := failAt fun c => .expected item c.kind

/-- Gives up because the bound on how deep statements and expressions nest is reached. -/
def exhausted : Parse α := failAt fun _ => .exhausted

/-- Takes the token at the cursor; its span is the result. -/
def advance : Parse Span := fun c => .ok (c.span, c.advance)

/-- Takes the token at the cursor if it passes a test, and says whether it did. -/
def accept (test : TokenKind → Bool) : Parse Bool := fun c =>
  if test c.kind then .ok (true, c.advance) else .ok (false, c)

/-- Takes a reserved word if it is there. -/
def acceptKeyword (k : Keyword) : Parse Bool := accept (·.isKeyword k)

/-- Takes a symbol if it is there. -/
def acceptSymbol (s : Symbol) : Parse Bool := accept (·.isSymbol s)

/-- Takes an identifier of a certain spelling if it is there. -/
def acceptWord (spelling : String) : Parse Bool := accept (·.isWord spelling)

/-- Takes a token that passes a test, or fails with what was expected. -/
def require (item : String) (test : TokenKind → Bool) : Parse Span := do
  if test (← kind) then advance else expected item

/-- Takes a reserved word or fails. -/
def requireKeyword (k : Keyword) : Parse Span :=
  require (TokenKind.describe (.keyword k)) (·.isKeyword k)

/-- Takes a symbol or fails. -/
def requireSymbol (s : Symbol) : Parse Span :=
  require (TokenKind.describe (.symbol s)) (·.isSymbol s)

/-- Takes an identifier of a certain spelling or fails. -/
def requireWord (spelling : String) : Parse Span :=
  require ("`" ++ spelling ++ "`") (·.isWord spelling)

/-- Takes an identifier or fails. -/
def identifier : Parse Name := do
  match ← kind with
  | .ident name => do
    let _ ← advance
    pure name
  | _ => expected "identifier"

/-- Takes the name of a member, which may be a reserved word, or fails. -/
def memberName : Parse Name := do
  match ← kind with
  | .ident name => do
    let _ ← advance
    pure name
  | .keyword k => do
    let _ ← advance
    pure (Name.ofString k.spelling)
  | _ => expected "member name"

/-- Takes all separators at the cursor. -/
def dropSeparators : Parse Unit := fun c => .ok ((), Cursor.dropSeparatorsFrom c.previous c.rest)

/-- One item and any further ones behind commas, at most `bound + 1` in all. -/
def commaSeparated (item : Parse α) : (bound : Nat) → Parse (List α)
  | 0 => do
    let first ← item
    pure [first]
  | bound + 1 => do
    let first ← item
    if ← acceptSymbol .comma then
      let further ← commaSeparated item bound
      pure (first :: further)
    else pure [first]

/-- One item and any further ones behind commas. -/
def commaList (item : Parse α) : Parse (List α) := do
  commaSeparated item (← remaining)

end Parse

end PageScript
