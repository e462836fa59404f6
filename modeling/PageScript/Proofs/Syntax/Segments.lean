import Mathlib.Data.List.Chain
import PageScript.Proofs.Syntax.Rows
import PageScript.Proofs.Syntax.Lexing
import PageScript.Proofs.Token.Directives

/-!
# Proofs/Syntax/Segments — pages of literal text and printed strings

A page without any code of its own is made of two kinds of segments: literal text in which neither a
code region nor a comment starts, and strings that are printed.  Whatever the segments hold, and
however delimiters are cut in pieces where they meet, the page is cut back into those segments
(`Segment.tokensOf_page`) and read as nothing but pieces of text to be written, in order
(`Segment.programOf?_page`).
-/

namespace PageScript

/-- A segment of a page without code of its own. -/
inductive Segment where
  /-- Literal text in which neither a code region nor a comment starts. -/
  | text (content : String) (noCode : ¬ ['<', '%'] <:+: content.toList)
      (noComment : ¬ ['<', '!', '-', '-'] <:+: content.toList)
  /-- A printed string on one line. -/
  | print (content : String) (oneLine : '\n' ∉ content.toList)

namespace Segment

/-- What the segment stands for in the response. -/
def content : Segment → String
  | text content _ _ | print content _ => content

/-- Whether the segment is literal text. -/
def isText : Segment → Bool
  | text .. => true
  | print .. => false

/-- How the segment is written in a page. -/
def chars : Segment → List Char
  | text content _ _ => content.toList
  | print content _ => '<' :: '%' :: '=' :: ' ' :: '"' ::
      (doubleQuotes content.toList ++ ['"', ' ', '%', '>'])

/-- The page of some segments. -/
def page (segments : List Segment) : String := String.ofList (segments.flatMap chars)

/-- What the page of some segments stands for. -/
def contents (segments : List Segment) : String := String.join (segments.map content)

/-- The kinds of the tokens of a segment. -/
def kinds : Segment → List TokenKind
  | text content _ _ => if content = "" then [] else [.text content]
  | print content _ => [.openPrint, .string content, .closeCode]

end Segment

/-! ## Where text ends -/

namespace Lexeme

variable {word chars rest : List Char}

/-- A delimiter starts within a text or not at all, if it cannot go on where the text ends. -/
theorem notPrefix_append (hword : '<' ∉ word.tail) (hchars : ¬ word <+: chars) (hne : chars ≠ [])
    (hrest : ∀ c ∈ rest.head?, c = '<') : ¬ word <+: chars ++ rest := by
  intro h
  obtain hprefix | ⟨tail, rfl⟩ := List.prefix_or_prefix_of_prefix h (List.prefix_append chars rest)
  · exact hchars hprefix
  · cases tail with
    | nil => rw [List.append_nil] at hchars; exact hchars (List.prefix_refl chars)
    | cons d tail =>
      obtain ⟨more, hmore⟩ := (List.prefix_append_right_inj chars).mp h
      have hd : d = '<' := hrest d (by rw [← hmore]; rfl)
      obtain ⟨c, chars, rfl⟩ := List.exists_cons_of_ne_nil hne
      exact hword (hd ▸ List.mem_append_right chars List.mem_cons_self)

/-- Text goes on where neither a code region nor a comment starts. -/
theorem interruption?_eq_none (hcode : ¬ ['<', '%'] <+: chars)
    (hcomment : ¬ ['<', '!', '-', '-'] <+: chars) : interruption? chars = none := by
  rw [interruption?.eq_def]
  split
  case h_1 rest => exact absurd ⟨_, rfl⟩ hcode
  case h_2 rest _ => exact absurd ⟨_, rfl⟩ hcode
  case h_3 rest =>
    rw [Option.map_eq_none_iff]
    cases hopen : Directive.afterWord? "<!--".toList ('<' :: '!' :: rest) with
    | none =>
      rw [Directive.read?, hopen]
      rfl
    | some behind =>
      have split := (Directive.afterWord?_signs (by simp [Directive.AreSigns])).mp hopen
      exact absurd ⟨behind, split.symm⟩ hcomment
  case h_4 => rfl

/-- Literal text is interrupted behind it at the earliest. -/
theorem interruption?_append (hcode : ¬ ['<', '%'] <:+: chars)
    (hcomment : ¬ ['<', '!', '-', '-'] <:+: chars) (hne : chars ≠ [])
    (hrest : ∀ c ∈ rest.head?, c = '<') : interruption? (chars ++ rest) = none := by
  refine interruption?_eq_none ?_ ?_
  · exact notPrefix_append (by decide) (fun h => hcode h.isInfix) hne hrest
  · exact notPrefix_append (by decide) (fun h => hcomment h.isInfix) hne hrest

theorem textLength_append (hcode : ¬ ['<', '%'] <:+: chars)
    (hcomment : ¬ ['<', '!', '-', '-'] <:+: chars) (hrest : ∀ c ∈ rest.head?, c = '<')
    (hstop : textLength rest = 0) : textLength (chars ++ rest) = chars.length := by
  induction chars with
  | nil => exact hstop
  | cons c chars ih =>
    have hnone := interruption?_append hcode hcomment (List.cons_ne_nil c chars) hrest
    have behind : textLength (chars ++ rest) = chars.length :=
      ih (fun h => hcode (h.trans (List.suffix_cons c chars).isInfix))
        (fun h => hcomment (h.trans (List.suffix_cons c chars).isInfix))
    rw [List.cons_append] at hnone ⊢
    rw [textLength, hnone, behind]
    rfl

/-- Literal text is read in one piece. -/
theorem inMarkup_text {c : Char} (hcode : ¬ ['<', '%'] <:+: c :: chars)
    (hcomment : ¬ ['<', '!', '-', '-'] <:+: c :: chars) (hrest : ∀ c ∈ rest.head?, c = '<')
    (hstop : textLength rest = 0) :
    inMarkup c (chars ++ rest) = (.text (String.ofList (c :: chars)), chars.length) := by
  have hnone := interruption?_append hcode hcomment (List.cons_ne_nil c chars) hrest
  have behind : textLength (chars ++ rest) = chars.length :=
    textLength_append (fun h => hcode (h.trans (List.suffix_cons c chars).isInfix))
      (fun h => hcomment (h.trans (List.suffix_cons c chars).isInfix)) hrest hstop
  rw [List.cons_append] at hnone
  rw [inMarkup, hnone]
  dsimp only
  rw [behind, List.take_left]

end Lexeme

/-! ## Reading a part of a page -/

/-- From a place on the characters up to `rest` are read as tokens of some kinds, and `rest` is read
from another place. -/
def Place.Reads (p : Place) (chars : List Char) (kinds : List TokenKind) (q : Place)
    (rest : List Char) : Prop :=
  ∃ ts, tokensFrom p chars = ts ++ tokensFrom q rest ∧ ts.map Token.kind = kinds

namespace Place.Reads

variable {p q r : Place} {chars rest tail : List Char} {kinds more : List TokenKind}

theorem refl (p : Place) (chars : List Char) : p.Reads chars [] p chars := ⟨[], rfl, rfl⟩

theorem trans (h : p.Reads chars kinds q rest) (h' : q.Reads rest more r tail) :
    p.Reads chars (kinds ++ more) r tail := by
  obtain ⟨ts, hts, rfl⟩ := h
  obtain ⟨us, hus, rfl⟩ := h'
  exact ⟨ts ++ us, by rw [hts, hus, List.append_assoc], List.map_append⟩

/-- The token that stands at a place is read. -/
theorem token {c : Char} {n : Nat} {kind : TokenKind} (h : p.lexeme c chars = (.token kind, n)) :
    ∃ stop, p.Reads (c :: chars) [kind] (p.after (.token kind) stop) (chars.drop n) := by
  refine ⟨p.offset + c.utf8Size + utf8Length (chars.take n),
    [p.token kind (p.offset + c.utf8Size + utf8Length (chars.take n))], ?_, rfl⟩
  rw [tokensFrom_cons, h]
  rfl

/-- A blank in a code region is passed. -/
theorem blank (hp : p.region = .code) : p.Reads (' ' :: chars) [] (p.past [' ']) chars := by
  have gap : ∀ c ∈ [' '], Lexeme.isSpace c = true := List.forall_mem_singleton.mpr rfl
  exact ⟨[], tokensFrom_blanks chars hp gap, rfl⟩

/-- A string is read up to its closing quote. -/
theorem string {text : List Char} (hp : p.region = .code) (oneLine : '\n' ∉ text)
    (hend : ∀ c ∈ chars.head?, c ≠ '"') :
    ∃ q, p.Reads ('"' :: (doubleQuotes text ++ ['"']) ++ chars) [.string (String.ofList text)] q
      chars ∧ q.region = .code := by
  have ends : (TokenKind.string (String.ofList text)).EndsAt chars := fun c hc =>
    bne_iff_ne.mpr (hend c hc)
  let piece : Piece := ⟨[], '"' :: (doubleQuotes text ++ ['"']), .string (String.ofList text)⟩
  have spelled : piece.IsSpelled := ⟨List.forall_mem_nil _, .string oneLine⟩
  obtain ⟨t, q, hread, hq, -, ht, -⟩ := Piece.steps_of_spelled spelled ends hp
  exact ⟨q, ⟨[t], hread, congrArg (· :: []) ht⟩, hq⟩

/-- A printed string is read from its delimiters and its quotes. -/
theorem print {text : List Char} (hp : p.region = .markup) (oneLine : '\n' ∉ text) :
    ∃ q, p.Reads ('<' :: '%' :: '=' :: ' ' :: '"' ::
        (doubleQuotes text ++ ['"', ' ', '%', '>']) ++ rest)
      [.openPrint, .string (String.ofList text), .closeCode] q rest ∧ q.region = .markup := by
  have hquoted : doubleQuotes text ++ ['"', ' ', '%', '>'] ++ rest =
      doubleQuotes text ++ ['"'] ++ (' ' :: '%' :: '>' :: rest) := by
    rw [List.append_assoc, List.append_assoc]
    rfl
  have opens (chars : List Char) : p.lexeme '<' ('%' :: '=' :: chars) = (.token .openPrint, 2) := by
    rw [Place.lexeme_markup hp]
    rfl
  obtain ⟨stop, hopen⟩ := token (opens (' ' :: '"' :: (doubleQuotes text ++ ['"', ' ', '%', '>'] ++ rest)))
  have hend : ∀ c ∈ (' ' :: '%' :: '>' :: rest).head?, c ≠ '"' := by
    rintro _ ⟨⟩
    decide
  obtain ⟨q, hstring, hq⟩ :=
    string (p := (p.after (.token .openPrint) stop).past [' ']) rfl oneLine hend
  have closes : (q.past [' ']).lexeme '%' ('>' :: rest) = (.token .closeCode, 1) := by
    rw [Place.lexeme_code (p := q.past [' ']) hq]
    rfl
  obtain ⟨stop', hclose⟩ := token closes
  refine ⟨(q.past [' ']).after (.token .closeCode) stop', hopen.trans ((blank rfl).trans ?_), rfl⟩
  rw [hquoted]
  exact hstring.trans ((blank hq).trans hclose)

/-- Literal text is read in one piece, if it is not empty. -/
theorem text {content : String} (hp : p.region = .markup)
    (noCode : ¬ ['<', '%'] <:+: content.toList)
    (noComment : ¬ ['<', '!', '-', '-'] <:+: content.toList) (hrest : ∀ c ∈ rest.head?, c = '<')
    (hstop : Lexeme.textLength rest = 0) :
    ∃ q, p.Reads (content.toList ++ rest) (if content = "" then [] else [.text content]) q rest ∧
      q.region = .markup := by
  cases hcontent : content.toList with
  | nil =>
    obtain rfl : content = "" := String.toList_inj.mp hcontent
    exact ⟨p, refl p rest, hp⟩
  | cons c chars =>
    have visible : content ≠ "" := fun h => by rw [h] at hcontent; cases hcontent
    rw [hcontent] at noCode noComment
    have found : p.lexeme c (chars ++ rest) = (.token (.text content), chars.length) := by
      rw [Place.lexeme_markup hp]
      rw [Lexeme.inMarkup_text noCode noComment hrest hstop, ← hcontent, String.ofList_toList]
    obtain ⟨stop, hread⟩ := token found
    rw [List.drop_left] at hread
    rw [if_neg visible]
    exact ⟨_, hread, hp⟩

end Place.Reads

/-! ## The tokens of a page -/

variable {p : Place} {rest : List Char}

/-- Where literal text is over: at the end of the page, or where it is interrupted. -/
def IsInterrupted (rest : List Char) : Prop :=
  (∀ c ∈ rest.head?, c = '<') ∧ Lexeme.textLength rest = 0

/-- One segment is read as its tokens, if text is over where it ends. -/
theorem Segment.reads (segment : Segment) (hp : p.region = .markup)
    (hrest : segment.isText = true → IsInterrupted rest) :
    ∃ q, p.Reads (segment.chars ++ rest) segment.kinds q rest ∧ q.region = .markup := by
  cases segment with
  | text content noCode noComment =>
    obtain ⟨hhead, hstop⟩ := hrest rfl
    exact Place.Reads.text hp noCode noComment hhead hstop
  | print content oneLine =>
    obtain ⟨q, hread, hq⟩ := Place.Reads.print hp oneLine
    rw [String.ofList_toList] at hread
    exact ⟨q, hread, hq⟩

/-- No two segments of literal text are neighbours. -/
def Segment.Alternate (segments : List Segment) : Prop :=
  segments.IsChain fun a b => ¬ (a.isText = true ∧ b.isText = true)

instance (segments : List Segment) : Decidable (Segment.Alternate segments) :=
  inferInstanceAs (Decidable (segments.IsChain _))

/-- Behind a segment of literal text nothing comes or a printed string. -/
theorem Segment.Alternate.isInterrupted {segment : Segment} {segments : List Segment}
    (h : Segment.Alternate (segment :: segments)) (htext : segment.isText = true) :
    IsInterrupted (segments.flatMap Segment.chars) := by
  cases segments with
  | nil => exact ⟨nofun, rfl⟩
  | cons next segments =>
    have apart := (List.isChain_cons_cons.mp h).1
    cases next with
    | text => exact absurd ⟨htext, rfl⟩ apart
    | print => exact ⟨by rintro _ ⟨⟩; rfl, rfl⟩

/-- **A page of segments is read as the tokens of its segments.** -/
theorem Segment.reads_page : ∀ {segments : List Segment} {p : Place}, p.region = .markup →
    Segment.Alternate segments →
      ∃ q, p.Reads (segments.flatMap Segment.chars) (segments.flatMap Segment.kinds) q []
  | [], p, _, _ => ⟨p, .refl p []⟩
  | segment :: segments, p, hp, halternate => by
    obtain ⟨q, hread, hq⟩ := segment.reads hp halternate.isInterrupted
    obtain ⟨r, hrest⟩ := reads_page hq halternate.tail
    exact ⟨r, hread.trans hrest⟩

theorem Segment.tokensOf_page {segments : List Segment} (h : Segment.Alternate segments) :
    ∃ ts last, tokensOf .markup (Segment.page segments) = ts ++ [last] ∧
      ts.map Token.kind = segments.flatMap Segment.kinds ∧ last.kind = .endOfPage := by
  obtain ⟨q, ts, hts, hkinds⟩ := reads_page (p := .start .markup) rfl h
  refine ⟨ts, q.endToken, ?_, hkinds, rfl⟩
  rw [tokensOf, Segment.page, String.toList_ofList, hts, tokensFrom_nil]

/-! ## The statements of a page -/

/-- A string in front of the end of a code region is an expression. -/
theorem Expr.parse_string {t u : Token} {ts : List Token} {p : Span} {text : String}
    (ht : t.kind = .string text) (hu : u.kind = .closeCode) :
    Expr.parse ⟨t :: u :: ts, p⟩ = .ok (.literal t.span (.string text), ⟨u :: ts, t.span⟩) := by
  have operand : Parse.firstOperand (fun l => Expr.parseAt (ts.length + 1) l) (ts.length + 1) 0
      ⟨t :: u :: ts, p⟩ = .ok (.literal t.span (.string text), ⟨u :: ts, t.span⟩) := by
    refine (Parse.firstOperand_primary ?_ ?_ ?_).trans (Parse.primary_literal (by rw [ht]; rfl)) <;>
      rw [ht] <;> nofun
  have stops : ∀ op, (Cursor.mk (u :: ts) t.span).kind.binaryOp? = some op → op.strength < 0 := by
    intro op hop
    rw [show (Cursor.mk (u :: ts) t.span).kind = .closeCode from hu] at hop
    cases hop
  exact (Parse.bind_of_ok operand).trans (Parse.extend_stop stops)

/-! ## Literal text -/

/-- The name under which literal text finds the response. -/
def Name.response : Name := .ofString "Response"

namespace Stmt

/-- Statements that write pieces of literal text, which are `text` together. -/
inductive Writes : List Stmt → String → Prop
  | nil : Writes [] ""
  | cons {place s : Span} {piece text : String} {rest : List Stmt} (h : Writes rest text) :
      Writes (Parse.writing (.literal place (.string piece)) s :: rest) (piece ++ text)

end Stmt

namespace Segment

theorem contents_cons (segment : Segment) (segments : List Segment) :
    contents (segment :: segments) = segment.content ++ contents segments := by
  rw [contents, List.map_cons, String.join_cons, contents]

/-- The tokens of segments are read as a row of texts to be written. -/
theorem exists_row (statement : Parse Stmt) {last : Token} (hlast : last.kind = .endOfPage) :
    ∀ {segments : List Segment} {ts : List Token} {p : Span},
      ts.map Token.kind = segments.flatMap kinds →
        ∃ row d, Parse.Row statement ⟨ts ++ [last], p⟩ row d ∧ d.kind.isEnd = true ∧
          Stmt.Writes row (contents segments) ∧
            (Cursor.mk (ts ++ [last]) p).kind.endsStatement = true
  | [], ts, p, hkinds => by
    obtain rfl := List.map_eq_nil_iff.mp hkinds
    refine ⟨[], _, .nil, ?_, .nil, ?_⟩
    · exact congrArg TokenKind.isEnd hlast
    · exact congrArg TokenKind.endsStatement hlast
  | .text content _ _ :: segments, ts, p, hkinds => by
    rw [contents_cons]
    by_cases hempty : content = ""
    · rw [List.flatMap_cons, kinds, if_pos hempty, List.nil_append] at hkinds
      obtain ⟨row, d, read, hd, writes, stops⟩ := exists_row statement hlast (p := p) hkinds
      refine ⟨row, d, read, hd, ?_, stops⟩
      rwa [Segment.content, hempty, String.empty_append]
    · rw [List.flatMap_cons, kinds, if_neg hempty] at hkinds
      obtain ⟨t, ts, rfl, ht, hkinds⟩ := List.map_eq_cons_iff.mp hkinds
      obtain ⟨row, d, read, hd, writes, stops⟩ := exists_row statement hlast (p := t.span) hkinds
      have moved : (Cursor.mk (t :: (ts ++ [last])) p).advance = ⟨ts ++ [last], t.span⟩ :=
        Cursor.advance_cons (by rw [ht]; rfl)
      refine ⟨_, d, .text ht ?_ ?_, hd, .cons writes, congrArg TokenKind.endsStatement ht⟩
      · rw [List.cons_append, moved]
        exact stops
      · rw [List.cons_append, moved]
        exact read
  | .print content _ :: segments, ts, p, hkinds => by
    rw [contents_cons]
    obtain ⟨t, ts, rfl, ht, hkinds⟩ := List.map_eq_cons_iff.mp hkinds
    obtain ⟨u, ts, rfl, hu, hkinds⟩ := List.map_eq_cons_iff.mp hkinds
    obtain ⟨v, ts, rfl, hv, hkinds⟩ := List.map_eq_cons_iff.mp hkinds
    obtain ⟨row, d, read, hd, writes, stops⟩ := exists_row statement hlast (p := v.span) hkinds
    have opened : (Cursor.mk (t :: u :: v :: (ts ++ [last])) p).advance =
        ⟨u :: v :: (ts ++ [last]), t.span⟩ := Cursor.advance_cons (by rw [ht]; rfl)
    have closed : (Cursor.mk (v :: (ts ++ [last])) u.span).advance = ⟨ts ++ [last], v.span⟩ :=
      Cursor.advance_cons (by rw [hv]; rfl)
    have value : Expr.parse (Cursor.mk (t :: u :: v :: (ts ++ [last])) p).advance =
        .ok (.literal u.span (.string content), ⟨v :: (ts ++ [last]), u.span⟩) :=
      opened ▸ Expr.parse_string hu hv
    have shorter : (v :: (ts ++ [last])).length < (t :: u :: v :: (ts ++ [last])).length := by
      simp only [List.length_cons]
      omega
    have ends : Parse.closesPrint (Cursor.mk (v :: (ts ++ [last])) u.span).kind = true :=
      congrArg Parse.closesPrint hv
    refine ⟨_, d, .print ht value shorter (.inl ends) ?_ ?_, hd, .cons writes,
      congrArg TokenKind.endsStatement ht⟩
    · rw [closed]
      exact stops
    · rw [closed]
      exact read

/-- **A page of segments is a program that writes the segments, in order.** -/
theorem programOf?_page {segments : List Segment} (h : Alternate segments) :
    ∃ body row, programOf? .markup (page segments) = .ok body ∧ Stmt.Opened body row ∧
      Stmt.Writes row (contents segments) := by
  obtain ⟨ts, last, htokens, hkinds, hlast⟩ := tokensOf_page h
  have length : (Cursor.start (ts ++ [last])).rest.length = ts.length + 1 := List.length_append
  obtain ⟨row, d, read, hd, writes, -⟩ := exists_row
    (Stmt.parseAt (ts.length + 1) ⟨false, false⟩) hlast (p := Span.origin) hkinds
  obtain ⟨body, hbody, opened⟩ :=
    Parse.statements_of_row Parse.readsPage_parseAt read hd (Nat.le_of_eq length)
  refine ⟨body, row, ?_, opened, writes⟩
  have block : Parse.block (Stmt.parseAt (ts.length + 1) ⟨false, false⟩) (fun _ => false)
      (.start (ts ++ [last])) = .ok (body, d) := by
    refine (Parse.bind_of_ok (Parse.remaining_run _)).trans ?_
    rw [length]
    exact hbody
  have program : Parse.program (.start (ts ++ [last])) = .ok (body, d) := by
    refine (Parse.bind_of_ok (Parse.remaining_run _)).trans ?_
    rw [length]
    refine (Parse.bind_of_ok block).trans ((Parse.bind_of_ok (Parse.kind_run d)).trans ?_)
    rw [if_pos hd]
    rfl
  rw [programOf?, htokens, programOfTokens?, program]
  rfl

end Segment

end PageScript
