import PageScript.Token.Markup

/-!
# Token/Sequence — a page as a sequence of tokens

`tokensOf` cuts a whole source into tokens.  A page alternates between literal text and code
regions; a plain script is one code region.  Every token records the bytes it covers, whether it
touches the token before it, going by what is recorded of both, and whether a comment or a continued
line stands in between.
-/

namespace PageScript

/-- The two ways to read a source. -/
inductive Region where
  /-- Literal page text. -/
  | markup
  /-- Script code. -/
  | code
deriving DecidableEq

/-- How many bytes characters take in UTF-8. -/
def utf8Length : List Char → Nat
  | [] => 0
  | c :: rest => c.utf8Size + utf8Length rest

/-- Where the reading of a source has got to. -/
structure Place where
  region : Region
  /-- The number of bytes already read. -/
  offset : Nat
  /-- The end that the last token records; none has been read at the start. -/
  lastStop : Option Nat
  /-- Whether a comment or a continued line has been read since then. -/
  spaced : Bool

namespace Place

/-- The place at the start of a source. -/
def start (region : Region) : Place := ⟨region, 0, none, false⟩

/-- What stands at the place before `c` and `rest`, and how many characters it takes beyond `c`, where
script code is looked at in some way. -/
def lexemeBy (look : Char → List Char → Lexeme × Nat) (p : Place) (c : Char) (rest : List Char) :
    Lexeme × Nat :=
  match p.region with
  | .code => look c rest
  | .markup =>
    let (kind, more) := Lexeme.inMarkup c rest
    (.token kind, more)

/-- What stands at the place before `c` and `rest`, and how many characters it takes beyond `c`. -/
def lexeme (p : Place) (c : Char) (rest : List Char) : Lexeme × Nat := p.lexemeBy Lexeme.inCode c rest

/-- The token of a kind from the place up to an offset.  It touches the last token if it starts at the
end that is recorded of that one. -/
def token (p : Place) (kind : TokenKind) (stop : Nat) : Token where
  kind := kind
  span := Span.ofRange p.offset stop
  spaced := p.spaced
  adjacent := !p.spaced && p.lastStop == some (Span.ofRange p.offset stop).start

/-- The token for the end of the source. -/
def endToken (p : Place) : Token where
  kind := .endOfPage
  span := Span.ofRange p.offset p.offset
  spaced := true
  adjacent := false

/-- The region behind a token. -/
def regionAfter (p : Place) : TokenKind → Region
  | .openCode | .openPrint => .code
  | .closeCode => .markup
  | _ => p.region

/-- The place behind a lexeme that ends at an offset. -/
def after (p : Place) (lexeme : Lexeme) (stop : Nat) : Place :=
  match lexeme with
  | .blank => { p with offset := stop }
  | .remark => { p with offset := stop, spaced := true }
  | .token kind => ⟨p.regionAfter kind, stop, some (Span.ofRange p.offset stop).stop, false⟩

end Place

/-- The tokens of a source from a place on, where script code is looked at in some way. -/
def tokensBy (look : Char → List Char → Lexeme × Nat) (p : Place) : List Char → List Token
  | [] => [p.endToken]
  | c :: rest =>
    let (lexeme, more) := p.lexemeBy look c rest
    let stop := p.offset + c.utf8Size + utf8Length (rest.take more)
    let further := tokensBy look (p.after lexeme stop) (rest.drop more)
    match lexeme with
    | .token kind => p.token kind stop :: further
    | _ => further
termination_by chars => chars.length
decreasing_by simp only [List.length_drop, List.length_cons]; omega

/-- The tokens of a source from a place on. -/
def tokensFrom (p : Place) (chars : List Char) : List Token := tokensBy Lexeme.inCode p chars

/-- The tokens of a source that starts in a region. -/
def tokensOf (region : Region) (source : String) : List Token :=
  tokensFrom (.start region) source.toList

namespace Place

variable {p : Place} {look : Char → List Char → Lexeme × Nat} {c : Char} {rest : List Char}

theorem lexemeBy_code (h : p.region = .code) : p.lexemeBy look c rest = look c rest := by
  rw [lexemeBy, h]

theorem lexemeBy_markup (h : p.region = .markup) :
    p.lexemeBy look c rest = (.token (Lexeme.inMarkup c rest).1, (Lexeme.inMarkup c rest).2) := by
  rw [lexemeBy, h]

theorem lexeme_code (h : p.region = .code) : p.lexeme c rest = Lexeme.inCode c rest :=
  lexemeBy_code h

theorem lexeme_markup (h : p.region = .markup) :
    p.lexeme c rest = (.token (Lexeme.inMarkup c rest).1, (Lexeme.inMarkup c rest).2) :=
  lexemeBy_markup h

end Place

/-! ## One place after another -/

theorem tokensBy_nil (look : Char → List Char → Lexeme × Nat) (p : Place) :
    tokensBy look p [] = [p.endToken] := by rw [tokensBy]

theorem tokensBy_cons (look : Char → List Char → Lexeme × Nat) (p : Place) (c : Char)
    (rest : List Char) :
    tokensBy look p (c :: rest) =
      let (lexeme, more) := p.lexemeBy look c rest
      let stop := p.offset + c.utf8Size + utf8Length (rest.take more)
      let further := tokensBy look (p.after lexeme stop) (rest.drop more)
      match lexeme with
      | .token kind => p.token kind stop :: further
      | _ => further := by
  rw [tokensBy]

theorem tokensFrom_nil (p : Place) : tokensFrom p [] = [p.endToken] := tokensBy_nil _ p

theorem tokensFrom_cons (p : Place) (c : Char) (rest : List Char) :
    tokensFrom p (c :: rest) =
      let (lexeme, more) := p.lexeme c rest
      let stop := p.offset + c.utf8Size + utf8Length (rest.take more)
      let further := tokensFrom (p.after lexeme stop) (rest.drop more)
      match lexeme with
      | .token kind => p.token kind stop :: further
      | _ => further :=
  tokensBy_cons _ p c rest

/-- What holds at the end of a source, and before whatever is found at a place if it holds behind
that, holds from every place on. -/
theorem Place.induction_on {motive : Place → List Char → Prop}
    (stop : ∀ p, motive p [])
    (token : ∀ p c rest kind more, p.lexeme c rest = (.token kind, more) →
      motive (p.after (.token kind) (p.offset + c.utf8Size + utf8Length (rest.take more)))
        (rest.drop more) → motive p (c :: rest))
    (layout : ∀ p c rest lexeme more, p.lexeme c rest = (lexeme, more) →
      (∀ kind, lexeme ≠ .token kind) →
      motive (p.after lexeme (p.offset + c.utf8Size + utf8Length (rest.take more)))
        (rest.drop more) → motive p (c :: rest))
    (p : Place) (chars : List Char) : motive p chars := by
  fun_induction tokensBy Lexeme.inCode p chars with
  | case1 p => exact stop p
  | case2 p c rest more _ kind found _ ih => exact token p c rest kind more found ih
  | case3 p c rest lexeme more found _ _ other ih => exact layout p c rest lexeme more found other ih

end PageScript
