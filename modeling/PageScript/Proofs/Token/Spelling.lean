import PageScript.Token.Code

/-!
# Proofs/Token/Spelling — how tokens are spelled, and where they end

`TokenKind.Spelled kind chars` says that `chars` spell a token of the kind.  The longest token wins,
so what stands behind a spelling decides whether the token ends there: `TokenKind.endsBefore` says
which characters cannot become a part of it.  Behind a spelled token stands such a character or
nothing exactly where the two can be told apart, and there the token is read (`Spelled.inCode`).
-/

namespace PageScript

/-- A word that is a token: a letter, then letters, digits and underscores.  The word that starts a
comment is none. -/
structure IsWord (chars : List Char) : Prop where
  letter : ∃ c cs, chars = c :: cs ∧ c.isAlpha = true
  word : ∀ c ∈ chars, Lexeme.isWordChar c = true
  noRemark : foldCase (String.ofList chars) ≠ "rem"

/-- Whether characters are a word can be computed. -/
theorem IsWord.of_chars {chars : List Char} (letter : chars.head?.any Char.isAlpha = true)
    (word : chars.all Lexeme.isWordChar = true)
    (noRemark : foldCase (String.ofList chars) ≠ "rem") : IsWord chars := by
  refine ⟨?_, List.all_eq_true.mp word, noRemark⟩
  cases chars with
  | nil => cases letter
  | cons c cs => exact ⟨c, cs, rfl, letter⟩

/-- Digits, at most with a point and further digits behind them. -/
inductive IsNumeral : List Char → Prop
  | whole {ds} (hne : ds ≠ []) (hds : ∀ c ∈ ds, c.isDigit = true) : IsNumeral ds
  | fraction {ds fs} (hne : ds ≠ []) (hds : ∀ c ∈ ds, c.isDigit = true)
      (hfs : ∀ c ∈ fs, c.isDigit = true) : IsNumeral (ds ++ '.' :: fs)

/-- A text as it stands inside a string literal. -/
def doubleQuotes : List Char → List Char
  | [] => []
  | c :: rest => if c = '"' then '"' :: '"' :: doubleQuotes rest else c :: doubleQuotes rest

namespace TokenKind

/-- What a word is: reserved or an identifier. -/
def ofWord (chars : List Char) : TokenKind :=
  match Keyword.ofSpelling? (foldCase (String.ofList chars)) with
  | some k => .keyword k
  | none => .ident (Name.ofString (String.ofList chars))

/-- The characters that spell a token of a kind. -/
inductive Spelled : TokenKind → List Char → Prop
  | word {chars} (h : IsWord chars) : Spelled (ofWord chars) chars
  | number {chars d} (h : IsNumeral chars) (hvalue : Number.Decimal.ofNumeral? chars = some d) :
      Spelled (.number d.toFloat) chars
  | string {text} (h : '\n' ∉ text) :
      Spelled (.string (String.ofList text)) ('"' :: (doubleQuotes text ++ ['"']))
  | symbol (s : Symbol) : Spelled (.symbol s) s.spelling.toList

/-- Whether a token of the kind ends before a character. -/
def endsBefore (c : Char) : TokenKind → Bool
  | ident _ | keyword _ => !Lexeme.isWordChar c
  | number _ => !Lexeme.isWordChar c && c != '.'
  | string _ => c != '"'
  | symbol .amp => c != 'h' && c != 'H'
  | symbol .lt => c != '>' && c != '='
  | symbol .gt => c != '='
  | symbol .dot => !c.isDigit
  | _ => true

/-- The token ends before what is left of the text. -/
def EndsAt (kind : TokenKind) (rest : List Char) : Prop :=
  ∀ c ∈ rest.head?, kind.endsBefore c = true

end TokenKind

theorem IsNumeral.starts {chars : List Char} (h : IsNumeral chars) :
    ∃ c cs, chars = c :: cs ∧ c.isDigit = true := by
  cases h with
  | @whole _ hne hds =>
    obtain ⟨c, cs, rfl⟩ := List.exists_cons_of_ne_nil hne
    exact ⟨c, cs, rfl, hds c List.mem_cons_self⟩
  | @fraction ds fs hne hds hfs =>
    obtain ⟨c, cs, rfl⟩ := List.exists_cons_of_ne_nil hne
    exact ⟨c, cs ++ '.' :: fs, rfl, hds c List.mem_cons_self⟩

/-! ## Characters -/

section

variable {c : Char}

theorem not_isSpace_of_isWordChar (h : Lexeme.isWordChar c = true) : Lexeme.isSpace c = false := by
  rw [Bool.eq_false_iff]
  intro hspace
  simp only [Lexeme.isSpace, Bool.or_eq_true, beq_iff_eq] at hspace
  obtain ((rfl | rfl) | rfl) | rfl := hspace <;> exact absurd h (by decide)

theorem isWordChar_of_isAlpha (h : c.isAlpha = true) : Lexeme.isWordChar c = true := by
  rw [Lexeme.isWordChar, Char.isAlphanum, h]
  rfl

theorem isWordChar_of_isDigit (h : c.isDigit = true) : Lexeme.isWordChar c = true := by
  rw [Lexeme.isWordChar, Char.isAlphanum, h, Bool.or_true]
  rfl

theorem not_isAlpha_of_isDigit (h : c.isDigit = true) : c.isAlpha = false := by
  have digit : c.toNat ≤ 57 := (Char.isDigit_iff_toNat.mp h).2
  rw [Bool.eq_false_iff]
  intro halpha
  have letter : 65 ≤ c.toNat := by
    obtain hupper | hlower := Bool.or_eq_true_iff.mp halpha
    · exact (of_decide_eq_true hupper).1
    · have lower : 97 ≤ c.toNat := of_decide_eq_true (Bool.and_eq_true_iff.mp hlower).1
      exact Nat.le_trans (Nat.le_add_right 65 32) lower
  omega

theorem not_isDigit_of_isAlpha (h : c.isAlpha = true) : c.isDigit = false := by
  rw [Bool.eq_false_iff]
  intro hdigit
  exact Bool.false_ne_true ((not_isAlpha_of_isDigit hdigit).symm.trans h)

end

/-- The longest run of characters of a kind ends before a character of another kind. -/
theorem takeWhile_run {p : Char → Bool} {run rest : List Char} (hrun : ∀ c ∈ run, p c = true)
    (hrest : ∀ c ∈ rest.head?, p c = false) : (run ++ rest).takeWhile p = run := by
  rw [List.takeWhile_append_of_pos hrun]
  cases rest with
  | nil => exact List.append_nil run
  | cons c rest => rw [List.takeWhile_cons_of_neg (by simp [hrest c rfl]), List.append_nil]

theorem dropWhile_run {p : Char → Bool} {run rest : List Char} (hrun : ∀ c ∈ run, p c = true)
    (hrest : ∀ c ∈ rest.head?, p c = false) : (run ++ rest).dropWhile p = rest := by
  have parted := List.takeWhile_append_dropWhile (p := p) (l := run ++ rest)
  rw [takeWhile_run hrun hrest] at parted
  exact List.append_cancel_left parted

namespace Lexeme

variable {c : Char} {chars ds fs cs rest : List Char}

/-! ## Words -/

theorem ofWord_append (h : IsWord chars) (hrest : ∀ c ∈ rest.head?, isWordChar c = false) :
    ofWord (chars ++ rest) = (.token (TokenKind.ofWord chars), chars.length) := by
  rw [ofWord, takeWhile_run h.word hrest]
  exact if_neg h.noRemark

/-! ## Numbers -/

/-- Behind a number no exponent starts but with a letter. -/
theorem exponentLength_of_head (hrest : ∀ c ∈ rest.head?, isWordChar c = false) :
    exponentLength rest = 0 := by
  cases rest with
  | nil => rfl
  | cons c rest =>
    refine if_neg fun h => ?_
    rw [Bool.or_eq_true, beq_iff_eq, beq_iff_eq] at h
    have hc := hrest c rfl
    obtain rfl | rfl := h <;> exact absurd hc (by decide)

theorem numeralLength_append (h : IsNumeral chars)
    (hrest : ∀ c ∈ rest.head?, isWordChar c = false ∧ c ≠ '.') :
    numeralLength (chars ++ rest) = chars.length := by
  have hdigit : ∀ c ∈ rest.head?, c.isDigit = false := by
    intro c hc
    rw [Bool.eq_false_iff]
    intro h
    exact Bool.false_ne_true ((hrest c hc).1.symm.trans (isWordChar_of_isDigit h))
  have hexponent := exponentLength_of_head fun c hc => (hrest c hc).1
  cases h with
  | whole hne hds =>
    rw [numeralLength, takeWhile_run hds hdigit, List.drop_left]
    split
    · exact absurd rfl (hrest _ rfl).2
    · rw [Nat.add_zero, List.drop_left, hexponent]
      rfl
  | @fraction ds fs hne hds hfs =>
    have hpoint : ∀ c ∈ ('.' :: (fs ++ rest)).head?, c.isDigit = false := by
      rintro _ ⟨⟩
      decide
    have hlength : (ds ++ '.' :: fs).length = ds.length + (fs.length + 1) := List.length_append
    rw [List.append_assoc, List.cons_append, numeralLength, takeWhile_run hds hpoint,
      List.drop_left]
    change ds.length + ((List.takeWhile Char.isDigit (fs ++ rest)).length + 1) +
      exponentLength (List.drop (ds.length +
        ((List.takeWhile Char.isDigit (fs ++ rest)).length + 1)) (ds ++ '.' :: (fs ++ rest))) = _
    rw [takeWhile_run hfs hdigit, ← hlength, ← List.cons_append, ← List.append_assoc,
      List.drop_left, hexponent]
    rfl

/-! ## Strings -/

theorem stringBody_doubleQuotes {text : List Char} (h : '\n' ∉ text)
    (hrest : ∀ c ∈ rest.head?, c ≠ '"') :
    stringBody (doubleQuotes text ++ '"' :: rest) =
      ((doubleQuotes text).length + 1, some text) := by
  induction text with
  | nil =>
    cases rest with
    | nil => rfl
    | cons c rest =>
      have hc := hrest c rfl
      simp [stringBody, doubleQuotes, hc]
  | cons c text ih =>
    rw [List.mem_cons, not_or] at h
    have further := ih h.2
    by_cases hc : c = '"'
    · subst hc
      rw [doubleQuotes, if_pos rfl]
      simp [stringBody, further]
    · rw [doubleQuotes, if_neg hc]
      simp [stringBody, further, hc, Ne.symm h.1]

theorem lineBreak_notMem_doubleQuotes {text : List Char} (h : '\n' ∉ text) :
    '\n' ∉ doubleQuotes text := by
  induction text with
  | nil => exact List.not_mem_nil
  | cons c text ih =>
    rw [List.mem_cons, not_or] at h
    rw [doubleQuotes]
    split <;> simp [ih h.2, h.1]

/-- A closed string literal is what its text is written with, and no quote is behind it. -/
theorem eq_of_stringBody {text : List Char} {k : Nat} (h : stringBody chars = (k, some text)) :
    ∃ behind, chars = doubleQuotes text ++ ['"'] ++ behind ∧
      k = (doubleQuotes text ++ ['"']).length ∧ '\n' ∉ text ∧ behind.head? ≠ some '"' := by
  fun_induction stringBody chars generalizing k text with
  | case1 rest length body further ih =>
    obtain ⟨rfl, htext⟩ := Prod.mk.inj h
    obtain ⟨text, rfl, rfl⟩ := Option.map_eq_some_iff.mp htext
    obtain ⟨behind, rfl, rfl, line, closed⟩ := ih further
    exact ⟨behind, by simp [doubleQuotes], by simp [doubleQuotes], by simp [line], closed⟩
  | case2 rest quote =>
    cases h
    refine ⟨rest, rfl, rfl, List.not_mem_nil, fun h => ?_⟩
    obtain ⟨tail, same⟩ := List.head?_eq_some_iff.mp h
    exact quote tail same
  | case3 => cases h
  | case4 => cases h
  | case5 c rest twice quote line length body further ih =>
    obtain ⟨rfl, htext⟩ := Prod.mk.inj h
    obtain ⟨text, rfl, rfl⟩ := Option.map_eq_some_iff.mp htext
    obtain ⟨behind, rfl, rfl, hline, closed⟩ := ih further
    have plain : doubleQuotes (c :: text) = c :: doubleQuotes text := if_neg quote
    refine ⟨behind, by rw [plain]; rfl, by rw [plain]; rfl, ?_, closed⟩
    rw [List.mem_cons, not_or]
    exact ⟨fun same => line same.symm, hline⟩

end Lexeme

/-! ## Tokens -/

namespace TokenKind

variable {kind : TokenKind} {chars rest : List Char}

theorem endsBefore_ofWord (c : Char) :
    (ofWord chars).endsBefore c = !Lexeme.isWordChar c := by
  rw [ofWord]
  cases Keyword.ofSpelling? (foldCase (String.ofList chars)) <;> rfl

theorem inCode_word (h : IsWord chars) (hrest : (ofWord chars).EndsAt rest) :
    ∃ c cs, chars = c :: cs ∧
      Lexeme.inCode c (cs ++ rest) = (.token (ofWord chars), cs.length) := by
  obtain ⟨c, cs, rfl, hc⟩ := h.letter
  refine ⟨c, cs, rfl, ?_⟩
  have space := not_isSpace_of_isWordChar (isWordChar_of_isAlpha hc)
  have stops : ∀ c ∈ rest.head?, Lexeme.isWordChar c = false := by
    intro d hd
    have := hrest d hd
    rwa [endsBefore_ofWord, Bool.not_eq_true'] at this
  unfold Lexeme.inCode
  rw [space, if_neg Bool.false_ne_true, if_pos hc, ← List.cons_append,
    Lexeme.ofWord_append h stops]
  rfl

theorem inCode_number {d : Number.Decimal} (h : IsNumeral chars)
    (hvalue : Number.Decimal.ofNumeral? chars = some d) (hrest : (number d.toFloat).EndsAt rest) :
    ∃ c cs, chars = c :: cs ∧
      Lexeme.inCode c (cs ++ rest) = (.token (.number d.toFloat), cs.length) := by
  have stops : ∀ c ∈ rest.head?, Lexeme.isWordChar c = false ∧ c ≠ '.' := by
    intro c hc
    have ends : (!Lexeme.isWordChar c && c != '.') = true := hrest c hc
    simpa using ends
  have length := Lexeme.numeralLength_append h stops
  obtain ⟨c, cs, rfl, hc⟩ := h.starts
  refine ⟨c, cs, rfl, ?_⟩
  have space := not_isSpace_of_isWordChar (isWordChar_of_isDigit hc)
  unfold Lexeme.inCode
  rw [space, if_neg Bool.false_ne_true, not_isAlpha_of_isDigit hc, if_neg Bool.false_ne_true,
    if_pos hc, ← List.cons_append, length]
  dsimp only
  rw [List.take_left, Lexeme.ofNumeral, hvalue]
  rfl

theorem inCode_string {text : List Char} (h : '\n' ∉ text)
    (hrest : (string (String.ofList text)).EndsAt rest) :
    Lexeme.inCode '"' (doubleQuotes text ++ ['"'] ++ rest) =
      (.token (.string (String.ofList text)), (doubleQuotes text ++ ['"']).length) := by
  have closes : ∀ c ∈ rest.head?, c ≠ '"' := fun c hc => bne_iff_ne.mp (hrest c hc)
  have body := Lexeme.stringBody_doubleQuotes h closes
  rw [List.append_assoc, List.singleton_append, List.length_append]
  simp [Lexeme.inCode, Lexeme.isSpace, body]

theorem inCode_amp (hrest : (symbol .amp).EndsAt rest) :
    Lexeme.inCode '&' rest = (.token (.symbol .amp), 0) := by
  cases rest with
  | nil => rfl
  | cons d rest =>
    have ends : (d != 'h' && d != 'H') = true := hrest d rfl
    have hd : d ≠ 'h' ∧ d ≠ 'H' := by simpa using ends
    have decimal : Lexeme.hexLength ('&' :: d :: rest) = 0 := if_neg (by simp [hd])
    change (if Lexeme.hexLength ('&' :: d :: rest) = 0 then _ else _) = _
    exact if_pos decimal

theorem inCode_dot (hrest : (symbol .dot).EndsAt rest) :
    Lexeme.inCode '.' rest = (.token (.symbol .dot), 0) := by
  have point : Lexeme.fractionLength ('.' :: rest) = 0 := by
    have stops : ∀ c ∈ rest.head?, c.isDigit = false := fun c hc =>
      (Bool.not_eq_true' _).mp (hrest c hc)
    have digits : ([] ++ rest).takeWhile Char.isDigit = [] := takeWhile_run nofun stops
    exact if_pos (congrArg List.length digits)
  change (if Lexeme.fractionLength ('.' :: rest) = 0 then _ else _) = _
  exact if_pos point

theorem inCode_lt (hrest : (symbol .lt).EndsAt rest) :
    Lexeme.inCode '<' rest = (.token (.symbol .lt), 0) := by
  cases rest with
  | nil => rfl
  | cons d rest =>
    have ends : (d != '>' && d != '=') = true := hrest d rfl
    have hd : d ≠ '>' ∧ d ≠ '=' := by simpa using ends
    simp [Lexeme.inCode, hd, Lexeme.isSpace, Lexeme.symbol?]

theorem inCode_gt (hrest : (symbol .gt).EndsAt rest) :
    Lexeme.inCode '>' rest = (.token (.symbol .gt), 0) := by
  cases rest with
  | nil => rfl
  | cons d rest =>
    have hd : d ≠ '=' := bne_iff_ne.mp (hrest d rfl)
    simp [Lexeme.inCode, hd, Lexeme.isSpace, Lexeme.symbol?]

theorem inCode_symbol (s : Symbol) (hrest : (symbol s).EndsAt rest) :
    ∃ c cs, s.spelling.toList = c :: cs ∧
      Lexeme.inCode c (cs ++ rest) = (.token (.symbol s), cs.length) := by
  cases s with
  | amp => exact ⟨'&', [], rfl, inCode_amp hrest⟩
  | lt => exact ⟨'<', [], rfl, inCode_lt hrest⟩
  | gt => exact ⟨'>', [], rfl, inCode_gt hrest⟩
  | dot => exact ⟨'.', [], rfl, inCode_dot hrest⟩
  | notEq => exact ⟨'<', ['>'], rfl, rfl⟩
  | ltEq => exact ⟨'<', ['='], rfl, rfl⟩
  | gtEq => exact ⟨'>', ['='], rfl, rfl⟩
  | _ => exact ⟨_, [], rfl, rfl⟩

/-- **A spelled token is read**: where the spelling ends, the token does. -/
theorem Spelled.inCode (h : Spelled kind chars) (hrest : kind.EndsAt rest) :
    ∃ c cs, chars = c :: cs ∧ Lexeme.inCode c (cs ++ rest) = (.token kind, cs.length) := by
  cases h with
  | word h => exact inCode_word h hrest
  | number h hvalue => exact inCode_number h hvalue hrest
  | string h => exact ⟨'"', _, rfl, inCode_string h hrest⟩
  | symbol s => exact inCode_symbol s hrest

end TokenKind

end PageScript
