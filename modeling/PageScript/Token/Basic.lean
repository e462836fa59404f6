import PageScript.Name
import PageScript.Number.Text
import PageScript.Span
import PageScript.Token.Word

/-!
# Token/Basic — the tokens of a page

A page is one sequence of tokens: pieces of literal text, include directives, the delimiters of
code regions, and the words, literals and symbols inside the regions.  The sequence ends with the
end-of-page token.
-/

namespace PageScript

/-- The kinds of token, with what each carries. -/
inductive TokenKind where
  /-- A number, without sign. -/
  | number (value : Float)
  /-- A string literal, its doubled quotes already single. -/
  | string (value : String)
  | ident (name : Name)
  /-- Literal page text. -/
  | text (content : String)
  /-- An include directive: the path as written, and whether it counts from the document root. -/
  | includeFile (path : String) (isVirtual : Bool)
  /-- The delimiter that opens a code region. -/
  | openCode
  /-- The delimiter that opens a printed expression. -/
  | openPrint
  /-- The delimiter that closes either. -/
  | closeCode
  | keyword (word : Keyword)
  | symbol (sign : Symbol)
  | lineBreak
  /-- Text that is no token. -/
  | invalid
  | endOfPage

namespace TokenKind

/-- The name of the kind where tokens are listed. -/
def tag : TokenKind → String
  | number _ => "Number" | string _ => "String" | ident _ => "Ident" | text _ => "Text"
  | includeFile _ _ => "Include" | openCode => "OpenCode" | openPrint => "PrintStart"
  | closeCode => "CloseCode" | keyword k => k.tag | symbol s => s.tag | lineBreak => "Newline"
  | invalid => "Error" | endOfPage => "Eof"

/-- The kind with what it carries, as listings of tokens show it. -/
def tagged (kind : TokenKind) : String :=
  match kind with
  | number value => "Number(" ++ Number.tagged value ++ ")"
  | string value => "String(" ++ Text.quote value ++ ")"
  | ident name => "Ident(" ++ name.tagged ++ ")"
  | text content => "Text(" ++ Text.quote content ++ ")"
  | includeFile path isVirtual =>
    "Include \x7b path: " ++ Text.quote path ++ ", is_virtual: " ++ toString isVirtual ++ " \x7d"
  | kind => kind.tag

/-- The spelling of a reserved word. -/
def reservedSpelling? : TokenKind → Option String
  | keyword k => some k.spelling
  | _ => none

/-- How an error message speaks of the token. -/
def describe : TokenKind → String
  | number value => "number `" ++ Number.plain value ++ "`"
  | string _ => "string literal"
  | ident name => "identifier `" ++ name.text ++ "`"
  | text _ => "page text"
  | includeFile _ _ => "#include directive"
  | openCode => "`<%`"
  | openPrint => "`<%=`"
  | closeCode => "`%>`"
  | keyword k => "keyword `" ++ k.spelling ++ "`"
  | symbol s => "`" ++ s.spelling ++ "`"
  | lineBreak => "end of line"
  | invalid => "invalid token"
  | endOfPage => "end of file"

/-- Whether the token separates statements: a line break, a colon, the delimiters of a code region
and the end of the page. -/
def isSeparator : TokenKind → Bool
  | lineBreak | symbol .colon | openCode | closeCode | endOfPage => true
  | _ => false

/-- Whether the token starts literal page content. -/
def isMarkup : TokenKind → Bool
  | text _ | includeFile _ _ | openPrint => true
  | _ => false

/-- Whether a statement is over before this token. -/
def endsStatement (kind : TokenKind) : Bool := kind.isSeparator || kind.isMarkup

/-- Whether the token is a certain reserved word. -/
def isKeyword (k : Keyword) : TokenKind → Bool
  | keyword k' => k == k'
  | _ => false

/-- Whether the token is a certain symbol. -/
def isSymbol (s : Symbol) : TokenKind → Bool
  | symbol s' => s == s'
  | _ => false

/-- Whether the token is an identifier with a certain spelling. -/
def isWord (spelling : String) : TokenKind → Bool
  | ident name => name.isSpelled spelling
  | _ => false

/-- Whether the token ends the page. -/
def isEnd : TokenKind → Bool
  | endOfPage => true
  | _ => false

end TokenKind

/-- A token of a page with its place. -/
structure Token where
  kind : TokenKind
  span : Span
  /-- A comment or a continued line stands before the token; so it is marked at the page's end. -/
  spaced : Bool
  /-- The token starts where the one before it ends, going by what their spans record. -/
  adjacent : Bool

/-- The line that a listing of tokens has for a token. -/
def Token.line (t : Token) : String := t.kind.tagged ++ " @ " ++ t.span.text

end PageScript
