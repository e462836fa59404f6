import PageScript.Token.Sequence

/-!
# Proofs/Token/Pieces — what may stand at a place

Between two tokens of a code region stands layout: blanks, comments and continued lines
(`IsLayout`).  Every other character of a source belongs to a token, and which kinds of token may
stand in a region, over which characters, is `Region.Admits`.  Looking at one place finds the one or
the other (`Place.lexemeBy_layout`, `Place.lexemeBy_token`), whatever the source holds there.
-/

namespace PageScript

variable {c : Char} {chars rest : List Char}

/-! ## The layout of a code region -/

/-- The start of a comment: an apostrophe, or the word for it where no longer word stands. -/
inductive IsCommentMark (behind : List Char) : List Char → Prop
  | apostrophe : IsCommentMark behind ['\x27']
  | word {mark} (hfold : foldCase (String.ofList mark) = "rem")
      (hends : ∀ c ∈ behind.head?, Lexeme.isWordChar c = false) : IsCommentMark behind mark

/-- What only separates tokens, in front of the rest of the source. -/
inductive IsLayout (behind : List Char) : List Char → Prop
  | blank {c : Char} (h : Lexeme.isSpace c = true) : IsLayout behind [c]
  /-- A comment reaches to the end of the line, of the region or of the source. -/
  | comment {mark body} (hmark : IsCommentMark (body ++ behind) mark) (hline : '\n' ∉ body)
      (hregion : ¬ ['%', '>'] <:+: body)
      (hstop : behind = [] ∨ ['\n'] <+: behind ∨ ['%', '>'] <+: behind) :
      IsLayout behind (mark ++ body)
  /-- A continued line: an underscore, blanks and the line break. -/
  | continuation {gap ending} (hgap : ∀ c ∈ gap, Lexeme.isGap c = true)
      (hending : ending = ['\n'] ∨ ending = ['\r', '\n']) :
      IsLayout behind ('_' :: (gap ++ ending))

/-- Pieces of layout one behind the other, in front of the rest of the source. -/
inductive AreLayout (behind : List Char) : List Char → Prop
  | nil : AreLayout behind []
  | cons {piece further : List Char} (h : IsLayout (further ++ behind) piece)
      (hfurther : AreLayout behind further) : AreLayout behind (piece ++ further)

theorem IsLayout.areLayout {behind piece : List Char} (h : IsLayout behind piece) :
    AreLayout behind piece := by
  have whole : AreLayout behind (piece ++ []) := .cons h .nil
  rwa [List.append_nil] at whole

/-- The region behind a token. -/
def Region.after (region : Region) : TokenKind → Region
  | .openCode | .openPrint => .code
  | .closeCode => .markup
  | _ => region

theorem Place.regionAfter_eq (p : Place) (kind : TokenKind) :
    p.regionAfter kind = p.region.after kind := by
  cases kind <;> rfl

namespace TokenKind

/-- Whether the token is one of script code, the delimiters apart. -/
def isScript : TokenKind → Bool
  | number _ | string _ | ident _ | keyword _ | symbol _ | lineBreak | invalid => true
  | _ => false

/-- Whether the token opens a code region. -/
def isOpener : TokenKind → Bool
  | openCode | openPrint => true
  | _ => false

/-- Whether the token is literal text. -/
def isText : TokenKind → Bool
  | text _ => true
  | _ => false

end TokenKind

/-- The tokens that may stand in a region over some characters, in front of the rest of the source.
A piece of text is a longest one: it reaches to the next interruption. -/
inductive Region.Admits (behind : List Char) : Region → TokenKind → List Char → Prop
  | text {chars : List Char} (hfree : ¬ ['<', '%'] <:+: chars)
      (hstart : Lexeme.interruption? (chars ++ behind) = none)
      (hstop : behind = [] ∨ (Lexeme.interruption? behind).isSome = true) :
      Admits behind .markup (.text (String.ofList chars)) chars
  | includeFile {path : String} {isVirtual : Bool} {chars : List Char} :
      Admits behind .markup (.includeFile path isVirtual) chars
  | opener {kind : TokenKind} {chars : List Char} (h : kind.isOpener = true) : Admits behind .markup kind chars
  | script {kind : TokenKind} {chars : List Char} (h : kind.isScript = true) : Admits behind .code kind chars
  | closeCode {chars : List Char} : Admits behind .code .closeCode chars

namespace Lexeme

/-! ## Comments -/

/-- A comment ends where it has to. -/
theorem drop_remarkLength (chars : List Char) :
    chars.drop (remarkLength chars) = [] ∨ ['\n'] <+: chars.drop (remarkLength chars) ∨
      ['%', '>'] <+: chars.drop (remarkLength chars) := by
  fun_induction remarkLength chars with
  | case1 => exact .inl rfl
  | case2 rest => exact .inr (.inl ⟨rest, rfl⟩)
  | case3 rest => exact .inr (.inr ⟨rest, rfl⟩)
  | case4 c rest _ _ ih => exact ih

theorem lineBreak_notMem_remark (chars : List Char) :
    '\n' ∉ chars.take (remarkLength chars) := by
  fun_induction remarkLength chars with
  | case1 => exact List.not_mem_nil
  | case2 rest => exact List.not_mem_nil
  | case3 rest => exact List.not_mem_nil
  | case4 c rest hline _ ih =>
    rw [List.take_succ_cons, List.mem_cons, not_or]
    exact ⟨fun h => hline h.symm, ih⟩

/-- No delimiter stands inside a comment. -/
theorem closeCode_notInfix_remark (chars : List Char) :
    ¬ ['%', '>'] <:+: chars.take (remarkLength chars) := by
  fun_induction remarkLength chars with
  | case1 => exact fun h => absurd (List.infix_nil.mp h) (List.cons_ne_nil _ _)
  | case2 rest => exact fun h => absurd (List.infix_nil.mp h) (List.cons_ne_nil _ _)
  | case3 rest => exact fun h => absurd (List.infix_nil.mp h) (List.cons_ne_nil _ _)
  | case4 c rest _ hregion ih =>
    rw [List.take_succ_cons, List.infix_cons_iff, not_or]
    refine ⟨fun h => ?_, ih⟩
    obtain ⟨hc, htail⟩ := List.cons_prefix_cons.mp h
    obtain ⟨tail, htail⟩ := htail.trans (List.take_prefix _ rest)
    exact hregion tail hc.symm htail.symm

/-- A comment is layout, from its mark to its end. -/
theorem isLayout_comment {mark : List Char} (hmark : IsCommentMark chars mark) :
    IsLayout (chars.drop (remarkLength chars)) (mark ++ chars.take (remarkLength chars)) := by
  refine .comment ?_ (lineBreak_notMem_remark chars) (closeCode_notInfix_remark chars)
    (drop_remarkLength chars)
  rwa [List.take_append_drop]

/-! ## One place in script code -/

/-- What looking at a place in script code says, with what it takes and what it leaves. -/
def IsRead (taken behind : List Char) : Lexeme → Prop
  | .blank | .remark => IsLayout behind taken
  | .token kind => Region.code.Admits behind kind taken

/-- What stands at the place before `c` and `rest` is read as far as the count says. -/
def IsReading (c : Char) (rest : List Char) (reading : Lexeme × Nat) : Prop :=
  IsRead (c :: rest.take reading.2) (rest.drop reading.2) reading.1

theorem isReading_script {kind : TokenKind} (h : kind.isScript = true) (more : Nat) :
    IsReading c rest (.token kind, more) :=
  .script h

theorem isReading_numberToken (value : Option Float) (more : Nat) :
    IsReading c rest (numberToken value, more) := by
  cases value with
  | none => exact isReading_script rfl more
  | some value => exact isReading_script rfl more

theorem isReading_ofNumeral (digits : List Char) (more : Nat) :
    IsReading c rest (ofNumeral digits, more) :=
  isReading_numberToken _ more

/-- The longest run of characters of a kind, and what stands behind it. -/
theorem exists_run (p : Char → Bool) (chars : List Char) :
    ∃ behind, chars = chars.takeWhile p ++ behind ∧ ∀ c ∈ behind.head?, p c = false := by
  refine ⟨chars.dropWhile p, List.takeWhile_append_dropWhile.symm, fun c hc => ?_⟩
  have hnot := List.head?_dropWhile_not p chars
  rwa [hc] at hnot

theorem isRead_ofWord (chars : List Char) :
    IsRead (chars.take (ofWord chars).2) (chars.drop (ofWord chars).2) (ofWord chars).1 := by
  rw [ofWord]
  dsimp only
  split
  case isTrue hfold =>
    -- Nothing but the letters tells a comment from an identifier, so the word has to be whole.
    obtain ⟨behind, hchars, hends⟩ := exists_run isWordChar chars
    generalize chars.takeWhile isWordChar = letters at hfold hchars ⊢
    subst hchars
    rw [List.drop_left, List.take_length_add_append, List.drop_length_add_append]
    exact isLayout_comment (.word hfold hends)
  case isFalse =>
    cases Keyword.ofSpelling? _ with
    | some k => exact Region.Admits.script rfl
    | none => exact Region.Admits.script rfl

/-- A word takes a character at least. -/
theorem ofWord_pos (h : c.isAlpha = true) (rest : List Char) : 0 < (ofWord (c :: rest)).2 := by
  have hword : isWordChar c = true := by rw [isWordChar, Char.isAlphanum, h]; rfl
  have hpos : 0 < ((c :: rest).takeWhile isWordChar).length := by
    rw [List.takeWhile_cons_of_pos hword]
    exact Nat.succ_pos _
  rw [ofWord]
  dsimp only
  split
  · exact Nat.lt_of_lt_of_le hpos (Nat.le_add_right _ _)
  · exact hpos

/-- A word is read from its first letter on. -/
theorem isReading_ofWord (h : c.isAlpha = true) (rest : List Char) :
    IsReading c rest ((ofWord (c :: rest)).1, (ofWord (c :: rest)).2 - 1) := by
  have hword := isRead_ofWord (c :: rest)
  have hpos := ofWord_pos h rest
  generalize ofWord (c :: rest) = word at hword hpos ⊢
  obtain ⟨lexeme, length⟩ := word
  cases length with
  | zero => cases hpos
  | succ length => exact hword

/-- An underscore with the line break behind it continues the line. -/
theorem isReading_continuation {ending behind : List Char}
    (h : rest.drop (rest.takeWhile isGap).length = ending ++ behind)
    (hending : ending = ['\n'] ∨ ending = ['\r', '\n']) :
    IsReading '_' rest (.remark, (rest.takeWhile isGap).length + ending.length) := by
  obtain ⟨tail, hrest, -⟩ := exists_run isGap rest
  have hgap : ∀ c ∈ rest.takeWhile isGap, isGap c = true := fun c hc =>
    List.all_eq_true.mp (List.all_takeWhile) c hc
  generalize rest.takeWhile isGap = gap at h hrest hgap ⊢
  subst hrest
  rw [List.drop_left] at h
  subst h
  rw [IsReading, List.take_length_add_append, List.drop_length_add_append, List.take_left,
    List.drop_left]
  exact .continuation hgap hending

/-- Whatever stands at a place in script code, it is layout or a token of script code or the
delimiter that closes the region. -/
theorem isReading_inCode (c : Char) (rest : List Char) : IsReading c rest (inCode c rest) := by
  fun_cases inCode c rest with
  | case1 _ _ hspace => exact IsLayout.blank hspace
  | case2 c rest _ halpha lexeme length hword =>
    have reading := isReading_ofWord halpha rest
    rwa [hword] at reading
  | case3 => exact isReading_ofNumeral _ _
  | case4 => exact isReading_script rfl _
  | case5 => exact isLayout_comment .apostrophe
  | case6 rest length text hbody => rw [hbody]; exact isReading_script rfl _
  | case7 rest length hbody => rw [hbody]; exact isReading_script rfl _
  | case8 rest gap behind hline =>
    dsimp only
    rw [hline]
    exact isReading_continuation hline (.inl rfl)
  | case9 rest gap behind hline =>
    dsimp only
    rw [hline]
    exact isReading_continuation hline (.inr rfl)
  | case10 rest gap hline hreturn =>
    dsimp only
    split
    case h_1 behind h => exact absurd h (hline behind)
    case h_2 behind h => exact absurd h (hreturn behind)
    case h_3 => exact isReading_script rfl _
  | case11 => exact Region.Admits.closeCode
  | case12 | case13 | case14 => exact isReading_script rfl _
  | case15 rest _ _ _ length hlength => rw [if_pos hlength]; exact isReading_script rfl _
  | case16 rest _ _ _ length hlength => rw [if_neg hlength]; exact isReading_numberToken _ _
  | case17 rest _ _ _ length hlength => rw [if_pos hlength]; exact isReading_script rfl _
  | case18 rest _ _ _ length hlength => rw [if_neg hlength]; exact isReading_ofNumeral _ _
  | case19 c rest _ _ _ s hsymbol => rw [hsymbol]; exact isReading_script rfl _
  | case20 c rest _ _ _ hsymbol => rw [hsymbol]; exact isReading_script rfl _

/-- What a way to look at script code finds at a place: a token, or layout as far as the count says. -/
def Finds (c : Char) (rest : List Char) (found : Lexeme × Nat) : Prop :=
  match found.1 with
  | .token kind => Region.code.Admits (rest.drop found.2) kind (c :: rest.take found.2)
  | _ => AreLayout (rest.drop found.2) (c :: rest.take found.2)

theorem finds_inCode (c : Char) (rest : List Char) : Finds c rest (inCode c rest) := by
  have reading := isReading_inCode c rest
  generalize inCode c rest = found at reading
  obtain ⟨lexeme, more⟩ := found
  cases lexeme with
  | token kind => exact reading
  | _ => exact IsLayout.areLayout reading

/-! ## One place in literal text -/

/-- Where text goes on no delimiter opens a code region. -/
theorem openCode_notPrefix (h : interruption? chars = none) : ¬ ['<', '%'] <+: chars := by
  rintro ⟨rest, rfl⟩
  rw [List.cons_append, List.cons_append, List.nil_append, interruption?.eq_def] at h
  split at h
  case h_1 => cases h
  case h_2 => cases h
  case h_3 _ _ heq => cases heq
  case h_4 hopen _ => exact hopen rest rfl

/-- Text ends where it has to. -/
theorem drop_textLength (chars : List Char) :
    chars.drop (textLength chars) = [] ∨
      (interruption? (chars.drop (textLength chars))).isSome = true := by
  fun_induction textLength chars with
  | case1 => exact .inl rfl
  | case2 c rest h => exact .inr h
  | case3 c rest _ ih => exact ih

/-- No delimiter that opens a code region stands in a text, which may start a place earlier. -/
theorem openCode_notInfix_cons (h : interruption? (c :: rest) = none) {n : Nat}
    (hrest : ¬ ['<', '%'] <:+: rest.take n) : ¬ ['<', '%'] <:+: c :: rest.take n := by
  have hprefix : c :: rest.take n <+: c :: rest := List.take_prefix (n + 1) (c :: rest)
  rw [List.infix_cons_iff, not_or]
  exact ⟨fun hopen => openCode_notPrefix h (hopen.trans hprefix), hrest⟩

theorem openCode_notInfix_text (chars : List Char) :
    ¬ ['<', '%'] <:+: chars.take (textLength chars) := by
  fun_induction textLength chars with
  | case1 => exact fun h => absurd (List.infix_nil.mp h) (List.cons_ne_nil _ _)
  | case2 c rest h => exact fun h => absurd (List.infix_nil.mp h) (List.cons_ne_nil _ _)
  | case3 c rest h ih => exact openCode_notInfix_cons (Option.not_isSome_iff_eq_none.mp h) ih

/-- What interrupts literal text is an include directive or opens a code region. -/
theorem admits_interruption {kind : TokenKind} {length : Nat}
    (h : interruption? chars = some (kind, length)) (taken behind : List Char) :
    Region.markup.Admits behind kind taken := by
  rw [interruption?.eq_def] at h
  split at h
  case h_1 => cases h; exact .opener rfl
  case h_2 => cases h; exact .opener rfl
  case h_3 =>
    obtain ⟨directive, -, hkind⟩ := Option.map_eq_some_iff.mp h
    cases hkind
    exact .includeFile
  case h_4 => cases h

/-- Whatever stands at a place in literal text, it is a token of such text. -/
theorem admits_inMarkup (c : Char) (rest : List Char) :
    Region.markup.Admits (rest.drop (inMarkup c rest).2) (inMarkup c rest).1
      (c :: rest.take (inMarkup c rest).2) := by
  rw [inMarkup]
  split
  case h_1 kind length h => exact admits_interruption h _ _
  case h_2 h =>
    refine .text (openCode_notInfix_cons h (openCode_notInfix_text rest)) ?_ (drop_textLength rest)
    rwa [List.cons_append, List.take_append_drop]

end Lexeme

/-! ## One place of either region -/

namespace Place

variable {p : Place} {more : Nat} {look : Char → List Char → Lexeme × Nat}

/-- What is found at a place is what the region has there: layout, or a token that it admits.  That
goes for every way to look at script code that finds one or the other. -/
theorem lexemeBy_token (sound : ∀ c rest, Lexeme.Finds c rest (look c rest)) {kind : TokenKind}
    (h : p.lexemeBy look c rest = (.token kind, more)) :
    p.region.Admits (rest.drop more) kind (c :: rest.take more) := by
  cases hregion : p.region with
  | markup =>
    rw [lexemeBy_markup hregion] at h
    have admits := Lexeme.admits_inMarkup c rest
    cases h
    exact admits
  | code =>
    rw [lexemeBy_code hregion] at h
    have found := sound c rest
    rwa [h] at found

theorem lexemeBy_layout (sound : ∀ c rest, Lexeme.Finds c rest (look c rest)) {lexeme : Lexeme}
    (h : p.lexemeBy look c rest = (lexeme, more)) (hlayout : ∀ kind, lexeme ≠ .token kind) :
    p.region = .code ∧ AreLayout (rest.drop more) (c :: rest.take more) := by
  cases hregion : p.region with
  | markup =>
    rw [lexemeBy_markup hregion] at h
    cases h
    exact absurd rfl (hlayout _)
  | code =>
    rw [lexemeBy_code hregion] at h
    have found := sound c rest
    rw [h] at found
    cases lexeme with
    | blank => exact ⟨rfl, found⟩
    | remark => exact ⟨rfl, found⟩
    | token kind => exact absurd rfl (hlayout kind)

theorem lexeme_token {kind : TokenKind} (h : p.lexeme c rest = (.token kind, more)) :
    p.region.Admits (rest.drop more) kind (c :: rest.take more) :=
  lexemeBy_token Lexeme.finds_inCode h

end Place

/-! ## Blanks -/

/-- The place behind blanks. -/
def Place.past (place : Place) (gap : List Char) : Place :=
  { place with offset := place.offset + utf8Length gap }

/-- Blanks only move the place on. -/
theorem tokensFrom_blanks (rest : List Char) : ∀ {place : Place} {gap : List Char},
    place.region = .code → (∀ c ∈ gap, Lexeme.isSpace c = true) →
      tokensFrom place (gap ++ rest) = tokensFrom (place.past gap) rest
  | _, [], _, _ => rfl
  | place, c :: gap, hplace, hgap => by
    have blank : place.lexeme c (gap ++ rest) = (.blank, 0) := by
      rw [Place.lexeme_code hplace]
      exact if_pos (hgap c List.mem_cons_self)
    have moved : (place.past [c]).past gap = place.past (c :: gap) := by
      rw [Place.past, Place.past, Place.past, Nat.add_assoc]
      rfl
    rw [← moved, List.cons_append, tokensFrom_cons, blank]
    exact tokensFrom_blanks rest hplace fun d hd => hgap d (List.mem_cons_of_mem c hd)

end PageScript
