import PageScript.Token.Code

/-!
# Token/Markup — what stands at a place in literal page text

Outside code regions a page is text.  Only two things interrupt it: the delimiter that opens a code
region and an include directive, `<!-- #include file="…" -->` or `virtual="…"`, with blanks allowed
around every part and at least one after `#include`.  `Lexeme.inMarkup` decides what stands at a
place; a piece of text reaches to the next interruption.
-/

namespace PageScript

/-- An include directive as written: the path, whether it counts from the document root, and how
many characters the directive takes. -/
structure Directive where
  path : String
  isVirtual : Bool
  length : Nat

namespace Directive

/-- The blanks of a directive. -/
def isGap (c : Char) : Bool :=
  c == ' ' || c == '\t' || c == '\n' || c == '\r' || c == '\x0c'

/-- What is left behind a fixed word at the front of a text; its letters match in either case. -/
def afterWord? : (word chars : List Char) → Option (List Char)
  | [], chars => some chars
  | w :: word, c :: chars => if w.toLower = c.toLower then afterWord? word chars else none
  | _ :: _, [] => none

/-- What is left behind the blanks at the front of a text. -/
def afterGap (chars : List Char) : List Char := chars.dropWhile isGap

/-- Reads a directive at the front of a text. -/
def read? (chars : List Char) : Option Directive := do
  let opened ← afterWord? "<!--".toList chars
  let named ← afterWord? "#include".toList (afterGap opened)
  let spaced := afterGap named
  if spaced.length = named.length then none
  else
    let (isVirtual, moded) ← match afterWord? "virtual".toList spaced with
      | some rest => some (true, rest)
      | none => (afterWord? "file".toList spaced).map fun rest => (false, rest)
    let equated ← afterWord? ['='] (afterGap moded)
    let quoted ← afterWord? ['"'] (afterGap equated)
    let path := quoted.takeWhile (· != '"')
    let unquoted ← afterWord? ['"'] (quoted.drop path.length)
    let closed ← afterWord? "-->".toList (afterGap unquoted)
    some ⟨String.ofList path, isVirtual, chars.length - closed.length⟩

end Directive

namespace Lexeme

/-- What interrupts literal text at its front, if anything does, and how many characters it
takes. -/
def interruption? : List Char → Option (TokenKind × Nat)
  | '<' :: '%' :: '=' :: _ => some (.openPrint, 3)
  | '<' :: '%' :: _ => some (.openCode, 2)
  | '<' :: '!' :: rest =>
    (Directive.read? ('<' :: '!' :: rest)).map fun d => (.includeFile d.path d.isVirtual, d.length)
  | _ => none

/-- How many characters of literal text stand at the front. -/
def textLength : List Char → Nat
  | [] => 0
  | c :: rest => if (interruption? (c :: rest)).isSome then 0 else textLength rest + 1

/-- What stands at a place in literal page text, and how many characters it takes beyond the first
`c`, with `rest` behind it. -/
def inMarkup (c : Char) (rest : List Char) : TokenKind × Nat :=
  match interruption? (c :: rest) with
  | some (kind, length) => (kind, length - 1)
  | none =>
    let length := textLength rest
    (.text (String.ofList (c :: rest.take length)), length)

end Lexeme

end PageScript
