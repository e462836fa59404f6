import PageScript.Token.Sequence

/-!
# Token/Rule — the rules of script code, and scanners that go by them

Script code is cut up by rules, each of which says which pieces of code it matches (`Rule.Matches`)
and what becomes of one (`Rule.lexeme`).  A scanner says which rule matches at a place and how far,
or that none does (`Scanner`); most is known of one that always finds the longest match
(`Scanner.ReturnsLongest`).  What it makes of a text that no rule matches is its own: over a string
literal without an end it may give up as a whole, or back off to a shorter one.
-/

namespace PageScript

/-- The rules of script code. -/
inductive Rule where
  /-- Blanks, which are skipped. -/
  | blank
  /-- The start of a comment. -/
  | remark
  | lineBreak
  /-- A continued line. -/
  | continuation
  | closeCode
  | keyword (k : Keyword)
  | symbol (s : Symbol)
  | decimal
  | hexadecimal
  | string
  | ident

namespace Rule

open Lexeme

/-- One or more characters of a sort. -/
structure IsRun (p : Char → Bool) (chars : List Char) : Prop where
  ne_nil : chars ≠ []
  all : ∀ c ∈ chars, p c = true

/-- The text that stands between the quotes of a string literal, with doubled quotes made single. -/
def unquote : List Char → List Char
  | '"' :: '"' :: rest => '"' :: unquote rest
  | c :: rest => c :: unquote rest
  | [] => []

/-- What a rule makes of the piece that it matches, and how many of the characters behind that it
takes as well: a comment takes those up to its end. -/
def lexeme (rule : Rule) (piece behind : List Char) : Lexeme × Nat :=
  match rule with
  | blank => (.blank, 0)
  | remark => (.remark, remarkLength behind)
  | lineBreak => (.token .lineBreak, 0)
  | continuation => (.remark, 0)
  | closeCode => (.token .closeCode, 0)
  | keyword k => (.token (.keyword k), 0)
  | symbol s => (.token (.symbol s), 0)
  | decimal => (ofNumeral piece, 0)
  | hexadecimal => (numberToken (Number.ofHexDigits? ((piece.drop 2).filter (· != '&'))), 0)
  | string => (.token (.string (String.ofList (unquote (piece.drop 1).dropLast))), 0)
  | ident => (.token (.ident (Name.ofString (String.ofList piece))), 0)

end Rule

/-- A way to tell which rule matches at a place of script code. -/
structure Scanner where
  /-- The rule that matches before `c` and `rest`, if any does, and how many characters beyond `c` the
  match has.  Without a match there is an error, which has so many: at least `c` belongs to it. -/
  scan : Char → List Char → Option Rule × Nat

namespace Scanner

/-- What stands before `c` and `rest`, and how many characters it takes beyond `c`. -/
def read (scanner : Scanner) (c : Char) (rest : List Char) : Lexeme × Nat :=
  match scanner.scan c rest with
  | (none, more) => (.token .invalid, more)
  | (some rule, more) =>
    let (lexeme, further) := rule.lexeme (c :: rest.take more) (rest.drop more)
    (lexeme, more + further)

/-- The tokens of a source that starts in a region. -/
def tokensOf (scanner : Scanner) (region : Region) (source : String) : List Token :=
  tokensBy scanner.read (.start region) source.toList

open Lexeme

/-- The rule of a word. -/
def ruleOfWord (chars : List Char) : Rule :=
  let folded := foldCase (String.ofList chars)
  if folded = "rem" then .remark
  else match Keyword.ofSpelling? folded with
    | some k => .keyword k
    | none => .ident

/-- The rule that matches before `c` and `rest`, and how many characters beyond `c` its longest match
has.  Over a string literal that has no end there is one error, and so there is over an underscore that
continues no line and the blanks behind it. -/
def scanStandard (c : Char) (rest : List Char) : Option Rule × Nat :=
  if isSpace c then (some .blank, (rest.takeWhile isSpace).length)
  else if c.isAlpha then
    (some (ruleOfWord (c :: rest.takeWhile isWordChar)), (rest.takeWhile isWordChar).length)
  else if c.isDigit then (some .decimal, numeralLength (c :: rest) - 1)
  else match c, rest with
  | '\n', _ => (some .lineBreak, 0)
  | '\x27', _ => (some .remark, 0)
  | '"', _ =>
    match stringBody rest with
    | (length, some _) => (some .string, length)
    | (length, none) => (none, length)
  | '_', _ =>
    let gap := (rest.takeWhile isGap).length
    match rest.drop gap with
    | '\n' :: _ => (some .continuation, gap + 1)
    | '\r' :: '\n' :: _ => (some .continuation, gap + 2)
    | _ => (none, gap)
  | '%', '>' :: _ => (some .closeCode, 1)
  | '<', '>' :: _ => (some (.symbol .notEq), 1)
  | '<', '=' :: _ => (some (.symbol .ltEq), 1)
  | '>', '=' :: _ => (some (.symbol .gtEq), 1)
  | '&', _ =>
    if hexLength (c :: rest) = 0 then (some (.symbol .amp), 0)
    else (some .hexadecimal, hexLength (c :: rest) - 1)
  | '.', _ =>
    if fractionLength (c :: rest) = 0 then (some (.symbol .dot), 0)
    else (some .decimal, fractionLength (c :: rest) - 1)
  | _, _ =>
    match symbol? c with
    | some s => (some (.symbol s), 0)
    | none => (none, 0)

/-- The scanner of the program. -/
def standard : Scanner := ⟨scanStandard⟩

end Scanner

end PageScript
