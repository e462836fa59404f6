import PageScript.Proofs.Token.Spelling
import PageScript.Proofs.Token.Standing

/-!
# Proofs/Token/Strings — string literals and the texts they stand for

A text without line feeds is written as a string literal by quotes around it and by doubling the quotes
in it (`quotedForm`).  Wherever a token of script code may start, that is read as one token with the
text, and no string token stands on other characters (`strings_roundTrip`).
-/

namespace PageScript

/-- The characters that a text is written with as a string literal. -/
def quotedForm (text : String) : List Char := '"' :: (doubleQuotes text.toList ++ ['"'])

/-- The reading of a source that is some characters and others behind them comes to the latter in a
code region. -/
def StartsToken (region : Region) (front behind : List Char) : Prop :=
  ∃ q, (Place.start region).ComesTo (front ++ behind) q behind ∧ q.region = .code

namespace Lexeme

variable {c : Char} {chars rest : List Char} {more : Nat}

theorem ne_string_of_numberToken (value : Option Float) (text : String) :
    numberToken value ≠ .token (.string text) := by
  cases value <;> rintro ⟨⟩

theorem ne_string_of_ofWord (text : String) : (ofWord chars).1 ≠ .token (.string text) := by
  rw [ofWord]
  dsimp only
  split
  · rintro ⟨⟩
  · cases Keyword.ofSpelling? _ <;> rintro ⟨⟩

/-- Only behind a quote a string is read. -/
theorem string_of_inCode {text : String} : inCode c rest = (.token (.string text), more) →
    c = '"' ∧ stringBody rest = (more, some text.toList) := by
  fun_cases inCode c rest with
  | case2 c rest _ letter lexeme length word =>
    have other : (ofWord (c :: rest)).1 ≠ .token (.string text) := ne_string_of_ofWord text
    rw [word] at other
    exact fun h => absurd (Prod.mk.inj h).1 other
  | case6 rest length body closed =>
    rw [closed]
    rintro ⟨⟩
    rw [String.toList_ofList]
    exact ⟨rfl, rfl⟩
  | case7 rest length open_end =>
    rw [open_end]
    rintro ⟨⟩
  | case8 rest gap behind line | case9 rest gap behind line =>
    dsimp only
    rw [line]
    rintro ⟨⟩
  | case10 rest gap line return_line =>
    dsimp only
    split
    case h_1 behind h => exact absurd h (line behind)
    case h_2 behind h => exact absurd h (return_line behind)
    case h_3 => rintro ⟨⟩
  | case15 rest _ _ _ length no_digit =>
    rw [if_pos no_digit]
    rintro ⟨⟩
  | case17 rest _ _ _ length no_digit =>
    rw [if_pos no_digit]
    rintro ⟨⟩
  | case16 rest _ _ _ length some_digit | case18 rest _ _ _ length some_digit =>
    rw [if_neg some_digit]
    exact fun h => absurd (Prod.mk.inj h).1 (ne_string_of_numberToken _ text)
  | case3 => exact fun h => absurd (Prod.mk.inj h).1 (ne_string_of_numberToken _ text)
  | case19 c rest _ _ _ s hsymbol =>
    rw [hsymbol]
    rintro ⟨⟩
  | case20 c rest _ _ _ hsymbol =>
    rw [hsymbol]
    rintro ⟨⟩
  | _ => rintro ⟨⟩

end Lexeme

/-- Literal text holds no string token. -/
theorem TokenKind.ne_string_of_inMarkup (c : Char) (rest : List Char) (text : String) :
    (Lexeme.inMarkup c rest).1 ≠ .string text := by
  intro same
  have admits := Lexeme.admits_inMarkup c rest
  rw [same] at admits
  cases admits with
  | opener h => cases h

variable {region : Region} {source : String}

/-- Where a token may start, the quoted form of a text is read as one. -/
theorem isToken_quotedForm {front behind : List Char} {text : String}
    (split : source.toList = front ++ (quotedForm text ++ behind))
    (starts : StartsToken region front (quotedForm text ++ behind)) (line : '\n' ∉ text.toList)
    (closed : behind.head? ≠ some '"') :
    IsToken region source (utf8Length front) (quotedForm text) (.string text) := by
  obtain ⟨q, comes, code⟩ := starts
  rw [← split] at comes
  have ends : (TokenKind.string (String.ofList text.toList)).EndsAt behind := by
    intro c hc
    exact bne_iff_ne.mpr fun same => closed (same ▸ hc)
  have found : q.lexeme '"' (doubleQuotes text.toList ++ ['"'] ++ behind) =
      (.token (.string text), (doubleQuotes text.toList ++ ['"']).length) := by
    rw [Place.lexeme_code code]
    have read := TokenKind.inCode_string line ends
    rwa [String.ofList_toList] at read
  have standing : IsToken region source (utf8Length front)
      ('"' :: (doubleQuotes text.toList ++ ['"'] ++ behind).take _) (.string text) :=
    isToken_of_comesTo comes split found
  rwa [List.take_left] at standing

/-- What a string token stands on is the quoted form of its text. -/
theorem exists_quotedForm {t : Tile} (ht : t ∈ tilesOf region source) {text : String}
    (kind : t.token.kind = .string text) : ∃ front behind,
      source.toList = front ++ (quotedForm text ++ behind) ∧ t.start = utf8Length front ∧
      t.chars = quotedForm text ∧ StartsToken region front (quotedForm text ++ behind) ∧
      '\n' ∉ text.toList ∧ behind.head? ≠ some '"' := by
  have inside := (isTiling_tilesOf region source).nonempty t ht (by rw [kind]; exact nofun)
  obtain ⟨q, c, rest, comes, found, offset, taken⟩ := exists_comesTo_of_mem ht inside
  rw [kind] at found
  obtain ⟨front, split, stands⟩ := comes.offset_eq
  have start : t.start = utf8Length front := by rw [← offset, stands]; exact Nat.zero_add _
  cases code : q.region with
  | markup =>
    rw [Place.lexeme_markup code] at found
    have read : (Lexeme.inMarkup c rest).1 = .string text := Lexeme.token.inj (Prod.mk.inj found).1
    exact absurd read (TokenKind.ne_string_of_inMarkup c rest text)
  | code =>
    have read : Lexeme.inCode c rest = (.token (.string text), (q.lexeme c rest).2) := by
      rw [← found, Place.lexeme_code code]
    obtain ⟨rfl, body⟩ := Lexeme.string_of_inCode read
    obtain ⟨behind, rfl, more, line, closed⟩ := Lexeme.eq_of_stringBody body
    rw [more, List.take_left] at taken
    refine ⟨front, behind, split, start, taken, ⟨q, ?_, code⟩, line, closed⟩
    rw [split] at comes
    exact comes

/-- **String literals and their texts correspond.**  Wherever a token of script code may start, the
quoted form of a text without line feeds, with no further quote behind it, is read as one string token
with that text and on exactly these characters.  Every string token of a source stands on the quoted
form of its text in that way. -/
theorem strings_roundTrip (region : Region) (source : String) :
    (∀ front text behind, source.toList = front ++ (quotedForm text ++ behind) →
      StartsToken region front (quotedForm text ++ behind) → '\n' ∉ text.toList →
      behind.head? ≠ some '"' →
      IsToken region source (utf8Length front) (quotedForm text) (.string text)) ∧
    ∀ token ∈ tokensOf region source, ∀ text, token.kind = .string text →
      ∃ front behind, source.toList = front ++ (quotedForm text ++ behind) ∧
        token.span = Span.ofRange (utf8Length front) (utf8Length (front ++ quotedForm text)) ∧
        StartsToken region front (quotedForm text ++ behind) ∧ '\n' ∉ text.toList ∧
        behind.head? ≠ some '"' := by
  refine ⟨fun front text behind => isToken_quotedForm, fun token mem text kind => ?_⟩
  rw [← map_token_tilesOf] at mem
  obtain ⟨t, ht, rfl⟩ := List.mem_map.mp mem
  obtain ⟨front, behind, split, start, chars, starts, line, closed⟩ := exists_quotedForm ht kind
  refine ⟨front, behind, split, ?_, starts, line, closed⟩
  rw [(isTiling_tilesOf region source).span t ht, Tile.stop, start, chars, utf8Length_append]

/-- A text with a delimiter and quotes in it, in the middle of a page. -/
theorem strings_roundTrip_page :
    StartsToken .markup "<% y = ".toList (quotedForm "%>\"\\'é" ++ " %>".toList) ∧
      IsToken .markup "<% y = \"%>\"\"\\'é\" %>" 7 (quotedForm "%>\"\\'é") (.string "%>\"\\'é") := by
  have starts : StartsToken .markup "<% y = ".toList (quotedForm "%>\"\\'é" ++ " %>".toList) :=
    ⟨_, .step (.step (.step (.step (.step (.step .here))))), by with_unfolding_all rfl⟩
  exact ⟨starts, (strings_roundTrip .markup "<% y = \"%>\"\"\\'é\" %>").1 "<% y = ".toList "%>\"\\'é"
    " %>".toList (by decide +kernel) starts (by decide) (by decide)⟩

end PageScript
