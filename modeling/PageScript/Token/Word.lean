/-!
# Token/Word — reserved words and symbols

The reserved words and the symbols of script code, each with its spelling.  A word is reserved in
every mixture of cases; `Keyword.ofSpelling?` takes the folded one (`ofSpelling?_spelling`).
-/

namespace PageScript

/-- The reserved words. -/
inductive Keyword where
  | andWord | byRefWord | byValWord | callWord | caseWord | classWord | constWord | dimWord | doWord
  | eachWord | elseWord | elseIfWord | emptyWord | endWord | exitWord | falseWord | forWord
  | functionWord | ifWord | isWord | loopWord | modWord | newWord | nextWord | notWord | nothingWord
  | nullWord | optionWord | orWord | privateWord | propertyWord | publicWord | reDimWord
  | selectWord | setWord | subWord | thenWord | toWord | trueWord | untilWord | wendWord | whileWord
  | withWord | xorWord
deriving DecidableEq

namespace Keyword

/-- All reserved words, in alphabetical order. -/
def all : List Keyword :=
  [.andWord, .byRefWord, .byValWord, .callWord, .caseWord, .classWord, .constWord, .dimWord,
   .doWord, .eachWord, .elseWord, .elseIfWord, .emptyWord, .endWord, .exitWord, .falseWord,
   .forWord, .functionWord, .ifWord, .isWord, .loopWord, .modWord, .newWord, .nextWord, .notWord,
   .nothingWord, .nullWord, .optionWord, .orWord, .privateWord, .propertyWord, .publicWord,
   .reDimWord, .selectWord, .setWord, .subWord, .thenWord, .toWord, .trueWord, .untilWord,
   .wendWord, .whileWord, .withWord, .xorWord]

/-- The name of a reserved word where tokens are listed by kind. -/
def tag : Keyword → String
  | andWord => "And" | byRefWord => "ByRef" | byValWord => "ByVal" | callWord => "Call"
  | caseWord => "Case" | classWord => "Class" | constWord => "Const" | dimWord => "Dim"
  | doWord => "Do" | eachWord => "Each" | elseWord => "Else" | elseIfWord => "ElseIf"
  | emptyWord => "Empty" | endWord => "End" | exitWord => "Exit" | falseWord => "False"
  | forWord => "For" | functionWord => "Function" | ifWord => "If" | isWord => "Is"
  | loopWord => "Loop" | modWord => "Mod" | newWord => "New" | nextWord => "Next"
  | notWord => "Not" | nothingWord => "Nothing" | nullWord => "Null" | optionWord => "Option"
  | orWord => "Or" | privateWord => "Private" | propertyWord => "Property"
  | publicWord => "Public" | reDimWord => "ReDim" | selectWord => "Select" | setWord => "Set"
  | subWord => "Sub" | thenWord => "Then" | toWord => "To" | trueWord => "True"
  | untilWord => "Until" | wendWord => "Wend" | whileWord => "While" | withWord => "With"
  | xorWord => "Xor"

/-- The folded spelling. -/
def spelling : Keyword → String
  | andWord => "and" | byRefWord => "byref" | byValWord => "byval" | callWord => "call"
  | caseWord => "case" | classWord => "class" | constWord => "const" | dimWord => "dim"
  | doWord => "do" | eachWord => "each" | elseWord => "else" | elseIfWord => "elseif"
  | emptyWord => "empty" | endWord => "end" | exitWord => "exit" | falseWord => "false"
  | forWord => "for" | functionWord => "function" | ifWord => "if" | isWord => "is"
  | loopWord => "loop" | modWord => "mod" | newWord => "new" | nextWord => "next"
  | notWord => "not" | nothingWord => "nothing" | nullWord => "null" | optionWord => "option"
  | orWord => "or" | privateWord => "private" | propertyWord => "property"
  | publicWord => "public" | reDimWord => "redim" | selectWord => "select" | setWord => "set"
  | subWord => "sub" | thenWord => "then" | toWord => "to" | trueWord => "true"
  | untilWord => "until" | wendWord => "wend" | whileWord => "while" | withWord => "with"
  | xorWord => "xor"

/-- The reserved word with a folded spelling. -/
def ofSpelling? (text : String) : Option Keyword := all.find? fun k => k.spelling == text

theorem ofSpelling?_spelling (k : Keyword) : ofSpelling? k.spelling = some k := by
  cases k <;> decide +kernel

/-- Only the spelling of a reserved word is one. -/
theorem spelling_of_ofSpelling? {text : String} {k : Keyword} (h : ofSpelling? text = some k) :
    k.spelling = text := by
  simpa using List.find?_some h

end Keyword

/-- The symbols of script code. -/
inductive Symbol where
  | amp | plus | minus | star | slash | backslash | caret | eq | notEq | lt | ltEq | gt | gtEq
  | lparen | rparen | comma | dot | colon
deriving DecidableEq

namespace Symbol

/-- The name of a symbol where tokens are listed by kind. -/
def tag : Symbol → String
  | amp => "Amp" | plus => "Plus" | minus => "Minus" | star => "Star" | slash => "Slash"
  | backslash => "Backslash" | caret => "Caret" | eq => "Eq" | notEq => "NotEq" | lt => "Lt"
  | ltEq => "LtEq" | gt => "Gt" | gtEq => "GtEq" | lparen => "LParen" | rparen => "RParen"
  | comma => "Comma" | dot => "Dot" | colon => "Colon"

/-- The spelling. -/
def spelling : Symbol → String
  | amp => "&" | plus => "+" | minus => "-" | star => "*" | slash => "/" | backslash => "\\"
  | caret => "^" | eq => "=" | notEq => "<>" | lt => "<" | ltEq => "<=" | gt => ">" | gtEq => ">="
  | lparen => "(" | rparen => ")" | comma => "," | dot => "." | colon => ":"

end Symbol

end PageScript
