import PageScript.Number.Hexadecimal
import PageScript.Token.Basic

/-!
# Token/Code — the longest token at a place in script code

`Lexeme.inCode` looks at the text from one place in a code region and decides what stands there and
how many characters it takes beyond the first.  The longest token wins: a reserved word is one only
if no letter, digit or underscore follows, and a number takes its fraction and exponent if they are
complete.
-/

namespace PageScript

/-- What stands at one place of a page. -/
inductive Lexeme where
  /-- Blanks, which only separate. -/
  | blank
  /-- A comment or a continued line. -/
  | remark
  | token (kind : TokenKind)

namespace Lexeme

/-- The blanks of a line of code. -/
def isSpace (c : Char) : Bool := c == ' ' || c == '\t' || c == '\r' || c == '\x0c'

/-- The blanks that may stand between the underscore and the end of a continued line. -/
def isGap (c : Char) : Bool := c == ' ' || c == '\t'

/-- The characters of a word after its first letter. -/
def isWordChar (c : Char) : Bool := c.isAlphanum || c == '_'

/-- How many characters a comment takes: up to the end of the line or of the code region. -/
def remarkLength : List Char → Nat
  | [] => 0
  | '\n' :: _ => 0
  | '%' :: '>' :: _ => 0
  | _ :: rest => remarkLength rest + 1

/-- The body of a string literal after the opening quote: how many characters the literal takes,
and its text if a closing quote ends it before the line does.  A literal without an end takes the rest
of its line as a whole, also where a shorter literal could be read off its start. -/
def stringBody : List Char → Nat × Option (List Char)
  | '"' :: '"' :: rest =>
    let (length, text) := stringBody rest
    (length + 2, text.map ('"' :: ·))
  | '"' :: _ => (1, some [])
  | '\n' :: _ => (0, none)
  | [] => (0, none)
  | c :: rest =>
    let (length, text) := stringBody rest
    (length + 1, text.map (c :: ·))

/-- How many characters an exponent takes: none unless it has a digit. -/
def exponentLength : List Char → Nat
  | e :: rest =>
    if e == 'e' || e == 'E' then
      let signed := match rest with
        | s :: _ => s == '+' || s == '-'
        | [] => false
      let digits := ((if signed then rest.drop 1 else rest).takeWhile Char.isDigit).length
      if digits = 0 then 0 else digits + if signed then 2 else 1
    else 0
  | [] => 0

/-- How many characters a number takes that starts with a digit. -/
def numeralLength (chars : List Char) : Nat :=
  let whole := (chars.takeWhile Char.isDigit).length
  let fraction := match chars.drop whole with
    | '.' :: rest => (rest.takeWhile Char.isDigit).length + 1
    | _ => 0
  whole + fraction + exponentLength (chars.drop (whole + fraction))

/-- How many characters a number takes that starts with a point. -/
def fractionLength (chars : List Char) : Nat :=
  let digits := ((chars.drop 1).takeWhile Char.isDigit).length
  if digits = 0 then 0 else digits + 1 + exponentLength (chars.drop (digits + 1))

/-- How many characters a hexadecimal number takes: the sign `&`, the letter `h`, the digits and at
most one more `&`; none unless it has a digit. -/
def hexLength : List Char → Nat
  | '&' :: h :: rest =>
    if h == 'h' || h == 'H' then
      let digits := (rest.takeWhile Number.isHexDigit).length
      if digits = 0 then 0
      else digits + 2 + if rest[digits]? == some '&' then 1 else 0
    else 0
  | _ => 0

/-- The token for a number: nothing but the overlong hexadecimal ones fail to be one. -/
def numberToken (value : Option Float) : Lexeme :=
  .token (match value with
    | some value => .number value
    | none => .invalid)

/-- A decimal number. -/
def ofNumeral (chars : List Char) : Lexeme :=
  numberToken ((Number.Decimal.ofNumeral? chars).map Number.Decimal.toFloat)

/-- A word: a reserved one, an identifier, or the start of a comment.  The second component says
how many characters it takes. -/
def ofWord (chars : List Char) : Lexeme × Nat :=
  let letters := chars.takeWhile isWordChar
  let spelling := String.ofList letters
  let folded := foldCase spelling
  if folded = "rem" then
    (.remark, letters.length + remarkLength (chars.drop letters.length))
  else
    let kind := match Keyword.ofSpelling? folded with
      | some k => .keyword k
      | none => .ident (Name.ofString spelling)
    (.token kind, letters.length)

/-- A symbol of one character. -/
def symbol? : Char → Option Symbol
  | '&' => some .amp
  | '+' => some .plus
  | '-' => some .minus
  | '*' => some .star
  | '/' => some .slash
  | '\\' => some .backslash
  | '^' => some .caret
  | '=' => some .eq
  | '<' => some .lt
  | '>' => some .gt
  | '(' => some .lparen
  | ')' => some .rparen
  | ',' => some .comma
  | '.' => some .dot
  | ':' => some .colon
  | _ => none

/-- What stands at a place in script code, and how many characters it takes beyond the first `c`,
with `rest` behind it.  An underscore continues the line if only blanks follow on it; where it does
not, it is an error together with these blanks, as a literal without an end is one error. -/
def inCode (c : Char) (rest : List Char) : Lexeme × Nat :=
  if isSpace c then (.blank, 0)
  else if c.isAlpha then
    let (lexeme, length) := ofWord (c :: rest)
    (lexeme, length - 1)
  else if c.isDigit then
    let length := numeralLength (c :: rest)
    (ofNumeral ((c :: rest).take length), length - 1)
  else match c, rest with
  | '\n', _ => (.token .lineBreak, 0)
  | '\x27', _ => (.remark, remarkLength rest)
  | '"', _ =>
    match stringBody rest with
    | (length, some text) => (.token (.string (String.ofList text)), length)
    | (length, none) => (.token .invalid, length)
  | '_', _ =>
    let gap := (rest.takeWhile isGap).length
    match rest.drop gap with
    | '\n' :: _ => (.remark, gap + 1)
    | '\r' :: '\n' :: _ => (.remark, gap + 2)
    | _ => (.token .invalid, gap)
  | '%', '>' :: _ => (.token .closeCode, 1)
  | '<', '>' :: _ => (.token (.symbol .notEq), 1)
  | '<', '=' :: _ => (.token (.symbol .ltEq), 1)
  | '>', '=' :: _ => (.token (.symbol .gtEq), 1)
  | '&', _ =>
    let length := hexLength (c :: rest)
    if length = 0 then (.token (.symbol .amp), 0)
    else
      let digits := ((rest.take (length - 1)).drop 1).filter (· != '&')
      (numberToken (Number.ofHexDigits? digits), length - 1)
  | '.', _ =>
    let length := fractionLength (c :: rest)
    if length = 0 then (.token (.symbol .dot), 0)
    else (ofNumeral ((c :: rest).take length), length - 1)
  | _, _ =>
    match symbol? c with
    | some s => (.token (.symbol s), 0)
    | none => (.token .invalid, 0)

end Lexeme

end PageScript
