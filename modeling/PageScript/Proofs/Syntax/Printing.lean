import Mathlib.Data.List.Chain
import PageScript.Proofs.Number.Plain
import PageScript.Proofs.Syntax.Lexing

/-!
# Proofs/Syntax/Printing — expressions as source

`Expr.source` writes an expression with a blank around every operator between two operands and with
no more parentheses than the binding strengths ask for.  For an expression that can be written at
all (`Expr.IsWritable`) this is a writing of it (`Expr.bare_pieces`), and its pieces stay apart
(`Expr.neat_pieces`).
-/

namespace PageScript

/-! ## What can be written -/

/-- The name can be written where a member is named. -/
def Name.IsMember (name : Name) : Prop := IsWord name.text.toList

/-- The name can be written as a variable: it is not reserved. -/
def Name.IsVariable (name : Name) : Prop :=
  name.IsMember ∧ Keyword.ofSpelling? name.text = none

/-- The literal can be written: a string has no end of line, a number reads back. -/
def Literal.IsWritable : Literal → Prop
  | .string value => '\n' ∉ value.toList
  | .number value => Number.ReadsBack value
  | _ => True

mutual

/-- Every literal and every name of the expression can be written. -/
def Expr.IsWritable : Expr → Prop
  | .literal _ value => value.IsWritable
  | .var _ name => name.IsVariable
  | .member _ object name => object.IsWritable ∧ name.IsMember
  | .withMember _ name => name.IsMember
  | .call _ callee args => callee.IsWritable ∧ Expr.AreWritable args
  | .create _ path => ∃ first names, path = first :: names ∧ first.IsVariable ∧
      ∀ name ∈ names, name.IsMember
  | .binary _ _ left right => left.IsWritable ∧ right.IsWritable
  | .unary _ _ operand => operand.IsWritable

/-- Every argument can be written. -/
def Expr.AreWritable : List Arg → Prop
  | [] => True
  | arg :: rest => arg.IsWritable ∧ Expr.AreWritable rest

/-- The value of the argument can be written. -/
def Arg.IsWritable : Arg → Prop
  | .mk value _ => value.IsWritable

end

/-! ## The printer -/

/-- One blank. -/
def blank : List Char := [' ']

namespace Piece

/-- A symbol behind blanks. -/
def symbol (gap : List Char) (s : Symbol) : Piece := ⟨gap, s.spelling.toList, .symbol s⟩

/-- A reserved word behind blanks. -/
def keyword (gap : List Char) (k : Keyword) : Piece := ⟨gap, k.spelling.toList, .keyword k⟩

/-- A name behind blanks. -/
def name (gap : List Char) (name : Name) : Piece :=
  ⟨gap, name.text.toList, .ofWord name.text.toList⟩

/-- A numeral behind blanks. -/
def numeral (gap chars : List Char) : Piece where
  gap := gap
  chars := chars
  kind := match Number.Decimal.ofNumeral? chars with
    | some d => .number d.toFloat
    | none => .invalid

/-- A string literal behind blanks. -/
def string (gap : List Char) (value : String) : Piece :=
  ⟨gap, '"' :: (doubleQuotes value.toList ++ ['"']), .string value⟩

/-- The piece is a number. -/
def isNumber (p : Piece) : Bool :=
  match p.kind with
  | .number _ => true
  | _ => false

/-- Pieces in parentheses. -/
def parens (gap : List Char) (inner : List Piece) : List Piece :=
  symbol gap .lparen :: (inner ++ [symbol [] .rparen])

end Piece

/-- The operator behind a blank. -/
def BinaryOp.piece : BinaryOp → Piece
  | add => .symbol blank .plus
  | sub => .symbol blank .minus
  | mul => .symbol blank .star
  | div => .symbol blank .slash
  | intDiv => .symbol blank .backslash
  | pow => .symbol blank .caret
  | mod => .keyword blank .modWord
  | concat => .symbol blank .amp
  | eq => .symbol blank .eq
  | notEq => .symbol blank .notEq
  | lt => .symbol blank .lt
  | ltEq => .symbol blank .ltEq
  | gt => .symbol blank .gt
  | gtEq => .symbol blank .gtEq
  | and => .keyword blank .andWord
  | or => .keyword blank .orWord
  | xor => .keyword blank .xorWord
  | is => .keyword blank .isWord

/-- The pieces of a number with given characters. -/
def Number.pieces (gap : List Char) : List Char → List Piece
  | '-' :: chars => [.symbol gap .minus, .numeral [] chars]
  | chars => [.numeral gap chars]

/-- The pieces of a literal. -/
def Literal.pieces (gap : List Char) : Literal → List Piece
  | .string value => [.string gap value]
  | .number value => Number.pieces gap (Number.plain value).toList
  | .boolean true => [.keyword gap .trueWord]
  | .boolean false => [.keyword gap .falseWord]
  | .empty => [.keyword gap .emptyWord]
  | .null => [.keyword gap .nullWord]
  | .nothing => [.keyword gap .nothingWord]

namespace Expr

/-- The pieces of an operand of a level: in parentheses if the expression binds less. -/
def atLevel (level : Nat) (e : Expr) (pieces : List Char → List Piece) (gap : List Char) :
    List Piece :=
  if level ≤ e.strength then pieces gap else Piece.parens gap (pieces [])

/-- The pieces of the operand of a sign: in parentheses if the first one is a number. -/
def unsigned (pieces : List Piece) : List Piece :=
  if pieces.head?.any Piece.isNumber then Piece.parens [] pieces else pieces

/-- The pieces of the members behind the first name of a `new` expression. -/
def memberPieces : List Name → List Piece
  | [] => []
  | name :: names => .symbol [] .dot :: .name [] name :: memberPieces names

/-- The pieces of the path behind `new`. -/
def pathPieces : List Name → List Piece
  | [] => []
  | first :: names => .name blank first :: memberPieces names

mutual

/-- The pieces of an expression without parentheses around all of it. -/
def pieces : Expr → List Char → List Piece
  | .literal _ value, gap => value.pieces gap
  | .var _ name, gap => [.name gap name]
  | .member _ object name, gap =>
    object.atLevel chainStrength object.pieces gap ++ [.symbol [] .dot, .name [] name]
  | .withMember _ name, gap => [.symbol gap .dot, .name [] name]
  | .call _ callee args, gap =>
    callee.atLevel chainStrength callee.pieces gap ++ Piece.parens [] (argPieces args [])
  | .create _ path, gap => .keyword gap .newWord :: pathPieces path
  | .binary _ op left right, gap =>
    left.atLevel op.strength left.pieces gap ++
      op.piece :: right.atLevel (op.strength + 1) right.pieces blank
  | .unary _ .not operand, gap =>
    .keyword gap .notWord :: operand.atLevel UnaryOp.not.strength operand.pieces blank
  | .unary _ .neg operand, gap =>
    .symbol gap .minus :: unsigned (operand.atLevel UnaryOp.neg.strength operand.pieces [])

/-- The pieces of arguments. -/
def argPieces : List Arg → List Char → List Piece
  | [], _ => []
  | [arg], gap => argPiece arg gap
  | arg :: rest, gap => argPiece arg gap ++ .symbol [] .comma :: argPieces rest blank

/-- The pieces of an argument: in parentheses if it is passed by value. -/
def argPiece : Arg → List Char → List Piece
  | .mk value byValue, gap =>
    if byValue then Piece.parens gap (value.pieces []) else value.pieces gap

end

/-- The source of an expression. -/
def source (e : Expr) : String := String.ofList ((e.pieces []).flatMap Piece.text)

end Expr

/-! ## The pieces are a writing -/

theorem Piece.kind_name (gap : List Char) (name : Name) :
    (Piece.name gap name).kind = .ofWord name.text.toList := by
  rw [Piece.name]

theorem Piece.memberName?_name (gap : List Char) (name : Name) :
    (Piece.name gap name).kind.memberName? = some name := by
  rw [Piece.kind_name, TokenKind.ofWord, String.ofList_toList]
  cases hword : Keyword.ofSpelling? (foldCase name.text) with
  | none => exact congrArg some name.ofString_text
  | some k =>
    have spelling := Keyword.spelling_of_ofSpelling? hword
    rw [name.folded] at spelling
    exact congrArg some (spelling ▸ name.ofString_text)

theorem Name.IsVariable.kind_name {name : Name} (h : name.IsVariable) (gap : List Char) :
    (Piece.name gap name).kind = .ident name := by
  rw [Piece.kind_name, TokenKind.ofWord, String.ofList_toList, name.folded, h.2]
  exact congrArg TokenKind.ident name.ofString_text

theorem BinaryOp.binaryOp?_piece (op : BinaryOp) : op.piece.kind.binaryOp? = some op := by
  cases op <;> rfl

theorem Number.pieces_of_isNumeral {chars : List Char} (h : IsNumeral chars) (gap : List Char) :
    Number.pieces gap chars = [.numeral gap chars] := by
  obtain ⟨c, cs, rfl, hc⟩ := h.starts
  unfold Number.pieces
  split
  · cases ‹_ :: _ = _›
    cases hc
  · rfl

theorem Piece.kind_numeral {chars : List Char} {d : Number.Decimal} (gap : List Char)
    (h : Number.Decimal.ofNumeral? chars = some d) :
    (Piece.numeral gap chars).kind = .number d.toFloat := by
  rw [Piece.numeral, h]

namespace Expr

variable {level : Nat} {e : Expr} {ps : List Piece} {gap : List Char}

theorem bare_literal {s : Span} {value : Literal} (h : value.IsWritable) :
    Bare (.literal s value) (value.pieces gap) := by
  cases value with
  | number x =>
    obtain ⟨chars, d, hnumeral, hd, ⟨hchars, rfl⟩ | ⟨hchars, rfl⟩⟩ := Number.chars_of_readsBack h
    · rw [Literal.pieces, hchars, Number.pieces_of_isNumeral hnumeral]
      exact .literal (congrArg TokenKind.literal? (Piece.kind_numeral gap hd))
    · rw [Literal.pieces, hchars]
      exact .negative rfl (Piece.kind_numeral [] hd)
  | boolean value => cases value <;> exact .literal rfl
  | _ => exact .literal rfl

theorem written_parens (h : WrittenAt 0 e ps) : WrittenAt level e (Piece.parens gap ps) :=
  .parens rfl h rfl

theorem written_atLevel (level : Nat) (gap : List Char) {pieces : List Char → List Piece}
    (h : ∀ gap, Bare e (pieces gap)) : WrittenAt level e (e.atLevel level pieces gap) := by
  rw [atLevel]
  split
  · exact .bare ‹_› (h gap)
  · exact written_parens (.bare (Nat.zero_le _) (h []))

theorem WrittenAt.mono {level' : Nat} (h : WrittenAt level e ps) (hle : level' ≤ level) :
    WrittenAt level' e ps := by
  cases h with
  | bare hlevel h => exact .bare (Nat.le_trans hle hlevel) h
  | parens hl h hr => exact .parens hl h hr

theorem written_unsigned (h : WrittenAt level e ps) :
    ∃ q qs, unsigned ps = q :: qs ∧ WrittenAt level e (q :: qs) ∧ ∀ x, q.kind ≠ .number x := by
  obtain ⟨q, qs, rfl, -⟩ := h.starts
  rw [unsigned]
  split
  · exact ⟨_, _, rfl, written_parens (h.mono (Nat.zero_le _)), nofun⟩
  · rename_i hnumber
    refine ⟨q, qs, rfl, h, fun x hx => hnumber ?_⟩
    change q.isNumber = true
    rw [Piece.isNumber, hx]

theorem pathWritten_memberPieces : ∀ names, PathWritten names (memberPieces names)
  | [] => .nil
  | _ :: names => .cons rfl (Piece.memberName?_name [] _) (pathWritten_memberPieces names)

mutual

/-- **The pieces of an expression are a writing of it.** -/
theorem bare_pieces : ∀ (e : Expr) (gap : List Char), e.IsWritable → Bare e (e.pieces gap)
  | .literal _ _, _, h => bare_literal h
  | .var _ _, gap, h => .var (h.kind_name gap)
  | .member _ object name, gap, h => by
    have head := written_atLevel chainStrength gap fun g => bare_pieces object g h.1
    exact .member head rfl rfl (Piece.memberName?_name [] name)
  | .withMember _ name, _, _ => .withMember rfl (Piece.memberName?_name [] name)
  | .call _ callee [], gap, h => by
    have head := written_atLevel chainStrength gap fun g => bare_pieces callee g h.1
    exact .apply head rfl rfl rfl
  | .call _ callee (arg :: args), gap, h => by
    have head := written_atLevel chainStrength gap fun g => bare_pieces callee g h.1
    have further := argsWritten_argPieces (arg :: args) [] (List.cons_ne_nil arg args) h.2
    exact .call head rfl further rfl
  | .create _ path, _, h => by
    obtain ⟨first, names, rfl, hfirst, -⟩ := h
    exact .create rfl (hfirst.kind_name blank) (pathWritten_memberPieces names)
  | .binary _ op left right, gap, h => by
    have first := written_atLevel op.strength gap fun g => bare_pieces left g h.1
    have second := written_atLevel (op.strength + 1) blank fun g => bare_pieces right g h.2
    exact .binary first op.binaryOp?_piece second
  | .unary _ .not e, _, h => by
    have operand := written_atLevel UnaryOp.not.strength blank fun g => bare_pieces e g h
    exact .not rfl operand
  | .unary _ .neg e, _, h => by
    have operand := written_atLevel UnaryOp.neg.strength [] fun g => bare_pieces e g h
    obtain ⟨q, qs, hps, hwritten, hnumber⟩ := written_unsigned operand
    rw [pieces, hps]
    exact .neg rfl hwritten hnumber

/-- The pieces of arguments are a writing of them. -/
theorem argsWritten_argPieces : ∀ (args : List Arg) (gap : List Char), args ≠ [] →
    AreWritable args → ArgsWritten args (argPieces args gap)
  | [], _, hne, _ => absurd rfl hne
  | [arg], gap, _, h => .one (argWritten_argPiece arg gap h.1)
  | arg :: next :: args, gap, _, h =>
    .cons (argWritten_argPiece arg gap h.1) rfl
      (argsWritten_argPieces (next :: args) blank (List.cons_ne_nil next args) h.2)

/-- The pieces of an argument are a writing of it. -/
theorem argWritten_argPiece : ∀ (arg : Arg) (gap : List Char), arg.IsWritable →
    ArgWritten arg (argPiece arg gap)
  | .mk value false, gap, h => .byReference (bare_pieces value gap h)
  | .mk value true, _, h => .byValue rfl (.bare (Nat.zero_le _) (bare_pieces value [] h)) rfl

end

end Expr

/-! ## The pieces stay apart -/

/-- Pieces that spell their tokens and stay apart, the first one behind given blanks. -/
structure Neat (gap : List Char) (ps : List Piece) : Prop where
  spelled : ∀ p ∈ ps, p.IsSpelled
  apart : ps.IsChain Piece.Apart
  first : ∀ p ∈ ps.head?, p.gap = gap
  ne_nil : ps ≠ []

namespace Neat

variable {gap gap' : List Char} {p : Piece} {ps qs : List Piece}

theorem one (h : p.IsSpelled) : Neat p.gap [p] where
  spelled := by simpa using h
  apart := .singleton p
  first := by simp
  ne_nil := List.cons_ne_nil p []

theorem append (hps : Neat gap ps) (hqs : Neat gap' qs)
    (h : ∀ p ∈ ps.getLast?, ∀ q ∈ qs.head?, p.Apart q) : Neat gap (ps ++ qs) where
  spelled p hp := (List.mem_append.mp hp).elim (hps.spelled p) (hqs.spelled p)
  apart := hps.apart.append hqs.apart h
  first p hp := by
    rw [List.head?_append_of_ne_nil _ hps.ne_nil] at hp
    exact hps.first p hp
  ne_nil := List.append_ne_nil_of_left_ne_nil hps.ne_nil qs

/-- A blank keeps everything apart. -/
theorem append_blank (hps : Neat gap ps) (hqs : Neat gap' qs) (hgap : gap' ≠ []) :
    Neat gap (ps ++ qs) :=
  hps.append hqs fun _ _ q hq => .inl (hqs.first q hq ▸ hgap)

end Neat

/-- Blanks. -/
def IsBlank (gap : List Char) : Prop := ∀ c ∈ gap, Lexeme.isSpace c = true

theorem isBlank_nil : IsBlank [] := nofun

theorem isBlank_blank : IsBlank blank := by
  intro c hc
  rw [blank, List.mem_singleton] at hc
  exact hc ▸ rfl

theorem blank_ne_nil : blank ≠ [] := List.cons_ne_nil ' ' []

section

variable {gap : List Char} {p q : Piece} {ps : List Piece} {name : Name}

theorem Piece.isSpelled_symbol (hgap : IsBlank gap) (s : Symbol) : (Piece.symbol gap s).IsSpelled :=
  ⟨hgap, .symbol s⟩

theorem Piece.isSpelled_name (hgap : IsBlank gap) (h : name.IsMember) :
    (Piece.name gap name).IsSpelled := by
  have word := TokenKind.Spelled.word h
  rw [← Piece.kind_name gap name] at word
  exact ⟨hgap, word⟩

theorem Keyword.isWord_spelling (k : Keyword) : IsWord k.spelling.toList := by
  have letter : k.spelling.toList.head?.any Char.isAlpha = true := by cases k <;> decide +kernel
  have word : k.spelling.toList.all Lexeme.isWordChar = true := by cases k <;> decide +kernel
  have noRemark : foldCase (String.ofList k.spelling.toList) ≠ "rem" := by
    cases k <;> decide +kernel
  exact .of_chars letter word noRemark

theorem Keyword.foldCase_spelling (k : Keyword) : foldCase k.spelling = k.spelling := by
  cases k <;> decide +kernel

theorem Keyword.ofWord_spelling (k : Keyword) :
    TokenKind.ofWord k.spelling.toList = .keyword k := by
  rw [TokenKind.ofWord, String.ofList_toList, foldCase_spelling, Keyword.ofSpelling?_spelling]

theorem Piece.isSpelled_keyword (hgap : IsBlank gap) (k : Keyword) :
    (Piece.keyword gap k).IsSpelled := by
  have word := TokenKind.Spelled.word (Keyword.isWord_spelling k)
  rw [Keyword.ofWord_spelling] at word
  exact ⟨hgap, word⟩

theorem Piece.isSpelled_numeral {chars : List Char} {d : Number.Decimal} (hgap : IsBlank gap)
    (h : IsNumeral chars) (hvalue : Number.Decimal.ofNumeral? chars = some d) :
    (Piece.numeral gap chars).IsSpelled :=
  ⟨hgap, Piece.kind_numeral gap hvalue ▸ .number h hvalue⟩

theorem Piece.isSpelled_string {value : String} (hgap : IsBlank gap) (h : '\n' ∉ value.toList) :
    (Piece.string gap value).IsSpelled := by
  have spelled := TokenKind.Spelled.string h
  rw [String.ofList_toList] at spelled
  exact ⟨hgap, spelled⟩

theorem BinaryOp.isSpelled_piece (op : BinaryOp) : op.piece.IsSpelled := by
  cases op <;> first
    | exact Piece.isSpelled_symbol isBlank_blank _
    | exact Piece.isSpelled_keyword isBlank_blank _

theorem BinaryOp.gap_piece (op : BinaryOp) : op.piece.gap = blank := by
  cases op <;> rfl

/-- Behind the pieces stands no character that the last token would take in. -/
def EndsBefore (c : Char) (ps : List Piece) : Prop :=
  ∀ p ∈ ps.getLast?, p.kind.endsBefore c = true

/-- Every token ends before a parenthesis or a comma. -/
theorem endsBefore_bracket {c : Char} (h : c ∈ ['(', ')', ',']) (ps : List Piece) :
    EndsBefore c ps := by
  intro p _
  simp only [List.mem_cons, List.not_mem_nil, or_false] at h
  obtain rfl | rfl | rfl := h <;>
    cases p.kind with
    | symbol s => cases s <;> rfl
    | _ => rfl

/-- A symbol touches the pieces in front of it where these end before it. -/
theorem Neat.append_symbol {qs : List Piece} {s : Symbol} {c : Char} (hps : Neat gap ps)
    (hqs : Neat [] (.symbol [] s :: qs)) (hs : s.spelling.toList = [c]) (hc : EndsBefore c ps) :
    Neat gap (ps ++ .symbol [] s :: qs) := by
  refine hps.append hqs fun p hp q hq => .inr fun d hd => ?_
  cases hq
  rw [Piece.symbol, hs] at hd
  cases hd
  exact hc p hp

/-- Behind a symbol that no character would lengthen, pieces may touch it. -/
theorem Neat.symbol_cons {gap' : List Char} {s : Symbol} (hgap : IsBlank gap)
    (hs : ∀ c, (TokenKind.symbol s).endsBefore c = true) (hps : Neat gap' ps) :
    Neat gap (.symbol gap s :: ps) := by
  refine (Neat.one (Piece.isSpelled_symbol hgap s)).append hps fun p hp q _ => .inr fun c _ => ?_
  cases hp
  exact hs c

theorem Neat.parens (hgap : IsBlank gap) (h : Neat [] ps) : Neat gap (Piece.parens gap ps) :=
  .symbol_cons hgap (fun _ => rfl) <|
    h.append_symbol (c := ')') (.one (Piece.isSpelled_symbol isBlank_nil .rparen)) rfl
      (endsBefore_bracket (by decide) ps)

theorem Neat.parens_nil (hgap : IsBlank gap) : Neat gap (Piece.parens gap []) :=
  .symbol_cons hgap (fun _ => rfl) (.one (Piece.isSpelled_symbol isBlank_nil .rparen))

/-- A point touches the name behind it. -/
theorem Neat.dot_cons (hgap : IsBlank gap) (h : name.IsMember)
    (hps : Neat [] (.name [] name :: ps)) : Neat gap (.symbol gap .dot :: .name [] name :: ps) := by
  have point : Neat gap [.symbol gap .dot] := .one (Piece.isSpelled_symbol hgap .dot)
  refine point.append hps fun p hp q hq => .inr fun c hc => ?_
  cases hp
  cases hq
  obtain ⟨d, ds, hchars, hd⟩ := h.letter
  rw [Piece.name, hchars] at hc
  cases hc
  exact (Bool.not_eq_true' _).mpr (not_isDigit_of_isAlpha hd)

theorem neat_dot (hgap : IsBlank gap) (h : name.IsMember) :
    Neat gap [.symbol gap .dot, .name [] name] :=
  .dot_cons hgap h (.one (Piece.isSpelled_name isBlank_nil h))

theorem endsBefore_append {qs : List Piece} {c : Char} (hqs : qs ≠ []) (h : EndsBefore c qs) :
    EndsBefore c (ps ++ qs) := by
  intro p hp
  rw [List.getLast?_append_of_ne_nil _ hqs] at hp
  exact h p hp

theorem endsBefore_concat {c : Char} (ps : List Piece) (h : p.kind.endsBefore c = true) :
    EndsBefore c (ps ++ [p]) := by
  refine endsBefore_append (List.cons_ne_nil p []) ?_
  rintro _ ⟨⟩
  exact h

/-- A closing parenthesis ends before a point. -/
theorem endsBefore_point_parens : EndsBefore '.' (Piece.parens gap ps) :=
  endsBefore_concat (.symbol gap .lparen :: ps) rfl

theorem Piece.endsBefore_point_name : (Piece.name gap name).kind.endsBefore '.' = true := by
  rw [Piece.kind_name, TokenKind.endsBefore_ofWord]
  rfl

/-- A name ends before the point of a member. -/
theorem neat_members : ∀ {names : List Name} {gap : List Char} {name : Name}, IsBlank gap →
    name.IsMember → (∀ n ∈ names, n.IsMember) →
      Neat gap (.name gap name :: Expr.memberPieces names)
  | [], _, _, hgap, h, _ => .one (Piece.isSpelled_name hgap h)
  | next :: names, gap, name, hgap, h, hnames => by
    have hnext := hnames next List.mem_cons_self
    have further : Neat [] (.name [] next :: Expr.memberPieces names) :=
      neat_members isBlank_nil hnext fun n hn => hnames n (List.mem_cons_of_mem next hn)
    have first : Neat gap [Piece.name gap name] := .one (Piece.isSpelled_name hgap h)
    have ends : EndsBefore '.' [Piece.name gap name] := by
      rintro _ ⟨⟩
      exact Piece.endsBefore_point_name
    exact first.append_symbol (.dot_cons isBlank_nil hnext further) rfl ends

end

/-! ## Expressions -/

namespace Expr

variable {gap : List Char} {ps : List Piece} {e : Expr}

theorem neat_atLevel (level : Nat) (hgap : IsBlank gap) {pieces : List Char → List Piece}
    (h : ∀ gap, IsBlank gap → Neat gap (pieces gap)) : Neat gap (e.atLevel level pieces gap) := by
  rw [atLevel]
  split
  · exact h gap hgap
  · exact (h [] isBlank_nil).parens hgap

theorem neat_unsigned (h : Neat [] ps) : Neat [] (unsigned ps) := by
  rw [unsigned]
  split
  · exact h.parens isBlank_nil
  · exact h

theorem neat_literal {value : Literal} (hgap : IsBlank gap) (h : value.IsWritable) :
    Neat gap (value.pieces gap) := by
  cases value with
  | string value => exact .one (Piece.isSpelled_string hgap h)
  | number x =>
    obtain ⟨chars, d, hnumeral, hd, ⟨hchars, -⟩ | ⟨hchars, -⟩⟩ := Number.chars_of_readsBack h
    · rw [Literal.pieces, hchars, Number.pieces_of_isNumeral hnumeral]
      exact .one (Piece.isSpelled_numeral hgap hnumeral hd)
    · rw [Literal.pieces, hchars]
      have digits : Neat [] [.numeral [] chars] :=
        .one (Piece.isSpelled_numeral isBlank_nil hnumeral hd)
      exact .symbol_cons hgap (fun _ => rfl) digits
  | boolean value => cases value <;> exact .one (Piece.isSpelled_keyword hgap _)
  | _ => exact .one (Piece.isSpelled_keyword hgap _)

/-- A chain ends before the point of a member. -/
theorem endsBefore_point_chain : EndsBefore '.' (e.atLevel chainStrength e.pieces gap) := by
  rw [atLevel]
  split
  · rename_i hchain
    cases e with
    | var s name => exact endsBefore_concat [] Piece.endsBefore_point_name
    | member s object name =>
      exact endsBefore_append (List.cons_ne_nil _ _)
        (endsBefore_concat [.symbol [] .dot] Piece.endsBefore_point_name)
    | withMember s name =>
      exact endsBefore_concat [.symbol gap .dot] Piece.endsBefore_point_name
    | call s callee args =>
      exact endsBefore_append (List.cons_ne_nil _ _) endsBefore_point_parens
    | binary s op left right =>
      exact absurd hchain (Nat.not_le_of_lt (Nat.lt_succ_of_lt op.strength_lt_tightest))
    | unary s op operand =>
      exact absurd hchain (Nat.not_le_of_lt (Nat.lt_succ_of_lt op.strength_lt_tightest))
    | _ => exact absurd hchain (Nat.not_succ_le_self BinaryOp.tightest)
  · exact endsBefore_point_parens

mutual

/-- **The pieces of an expression spell their tokens and stay apart.** -/
theorem neat_pieces : ∀ (e : Expr) {gap : List Char}, IsBlank gap → e.IsWritable →
    Neat gap (e.pieces gap)
  | .literal _ _, _, hgap, h => neat_literal hgap h
  | .var _ _, _, hgap, h => .one (Piece.isSpelled_name hgap h.1)
  | .member _ object name, gap, hgap, h => by
    have head : Neat gap (object.atLevel chainStrength object.pieces gap) :=
      neat_atLevel chainStrength hgap fun _ hg => neat_pieces object hg h.1
    exact head.append_symbol (neat_dot isBlank_nil h.2) rfl endsBefore_point_chain
  | .withMember _ name, _, hgap, h => neat_dot hgap h
  | .call _ callee [], gap, hgap, h => by
    have head : Neat gap (callee.atLevel chainStrength callee.pieces gap) :=
      neat_atLevel chainStrength hgap fun _ hg => neat_pieces callee hg h.1
    exact head.append_symbol (c := '(') (.parens_nil isBlank_nil) rfl
      (endsBefore_bracket (by decide) _)
  | .call _ callee (arg :: args), gap, hgap, h => by
    have head : Neat gap (callee.atLevel chainStrength callee.pieces gap) :=
      neat_atLevel chainStrength hgap fun _ hg => neat_pieces callee hg h.1
    have further := neat_argPieces (arg :: args) isBlank_nil (List.cons_ne_nil arg args) h.2
    exact head.append_symbol (c := '(') (further.parens isBlank_nil) rfl
      (endsBefore_bracket (by decide) _)
  | .create _ path, gap, hgap, h => by
    obtain ⟨first, names, rfl, hfirst, hnames⟩ := h
    exact (Neat.one (Piece.isSpelled_keyword hgap .newWord)).append_blank
      (neat_members isBlank_blank hfirst.1 hnames) blank_ne_nil
  | .binary _ op left right, gap, hgap, h => by
    have first : Neat gap (left.atLevel op.strength left.pieces gap) :=
      neat_atLevel op.strength hgap fun _ hg => neat_pieces left hg h.1
    have second : Neat blank (right.atLevel (op.strength + 1) right.pieces blank) :=
      neat_atLevel (op.strength + 1) isBlank_blank fun _ hg => neat_pieces right hg h.2
    have further := (Neat.one op.isSpelled_piece).append_blank second blank_ne_nil
    exact first.append_blank further (op.gap_piece ▸ blank_ne_nil)
  | .unary _ .not e, gap, hgap, h => by
    have operand : Neat blank (e.atLevel UnaryOp.not.strength e.pieces blank) :=
      neat_atLevel UnaryOp.not.strength isBlank_blank fun _ hg => neat_pieces e hg h
    exact (Neat.one (Piece.isSpelled_keyword hgap .notWord)).append_blank operand blank_ne_nil
  | .unary _ .neg e, gap, hgap, h => by
    have operand : Neat [] (e.atLevel UnaryOp.neg.strength e.pieces []) :=
      neat_atLevel UnaryOp.neg.strength isBlank_nil fun _ hg => neat_pieces e hg h
    exact .symbol_cons hgap (fun _ => rfl) (neat_unsigned operand)

/-- The pieces of arguments spell their tokens and stay apart. -/
theorem neat_argPieces : ∀ (args : List Arg) {gap : List Char}, IsBlank gap → args ≠ [] →
    AreWritable args → Neat gap (argPieces args gap)
  | [], _, _, hne, _ => absurd rfl hne
  | [arg], _, hgap, _, h => neat_argPiece arg hgap h.1
  | arg :: next :: args, gap, hgap, _, h => by
    have first := neat_argPiece arg hgap h.1
    have further := neat_argPieces (next :: args) isBlank_blank (List.cons_ne_nil next args) h.2
    exact first.append_symbol (c := ',') (.symbol_cons isBlank_nil (fun _ => rfl) further) rfl
      (endsBefore_bracket (by decide) _)

/-- The pieces of an argument spell their tokens and stay apart. -/
theorem neat_argPiece : ∀ (arg : Arg) {gap : List Char}, IsBlank gap → arg.IsWritable →
    Neat gap (argPiece arg gap)
  | .mk value false, _, hgap, h => neat_pieces value hgap h
  | .mk value true, _, hgap, h => (neat_pieces value isBlank_nil h).parens hgap

end

end Expr

end PageScript
