import PageScript.Proofs.Token.Relaying

/-!
# Proofs/Token/Pointed — a point behind a text leaves its tokens

A point is no part of a word, and no string, symbol or hexadecimal number goes on with one.  So a text
that ends with a token other than a decimal number is cut into the same tokens if a point stands behind
it (`Lexeme.EndsInToken.tokensFrom_point`), whatever stands behind the point.
-/

namespace PageScript

namespace Lexeme

variable {c : Char} {chars rest tail : List Char} {p : Char → Bool}

/-! ## What a point ends -/

theorem takeWhile_point (hp : p '.' = false) (chars tail : List Char) :
    (chars ++ '.' :: tail).takeWhile p = chars.takeWhile p := by
  induction chars with
  | nil => exact List.takeWhile_cons_of_neg (Bool.eq_false_iff.mp hp)
  | cons c chars ih => rw [List.cons_append, List.takeWhile_cons, List.takeWhile_cons, ih]

theorem starts_point (hp : p '.' = false) (chars tail : List Char) :
    starts p (chars ++ '.' :: tail) = starts p chars := by
  cases chars with
  | nil => exact hp
  | cons => rfl

/-- With characters in front of the point, what they start with does not depend on it. -/
theorem starts_append (hne : chars ≠ []) : starts p (chars ++ rest) = starts p chars := by
  cases chars with
  | nil => exact absurd rfl hne
  | cons => rfl

theorem exponentLength_point (chars tail : List Char) :
    exponentLength (chars ++ '.' :: tail) = exponentLength chars := by
  cases chars with
  | nil => exact exponentLength_cons _ _
  | cons e chars =>
    rw [List.cons_append, exponentLength_cons, exponentLength_cons, starts_point (by decide),
      starts_point (by decide)]
    cases signed : starts (· == '+') chars || starts (· == '-') chars with
    | true =>
      cases chars with
      | nil => cases signed
      | cons s chars => simp only [if_true, List.cons_append, List.drop_succ_cons, List.drop_zero,
          takeWhile_point (p := Char.isDigit) rfl]
    | false => simp only [Bool.false_eq_true, if_false, takeWhile_point (p := Char.isDigit) rfl]

/-- A number that is not the whole text ends where it did. -/
theorem numeralLength_point (less : numeralLength chars < chars.length) (tail : List Char) :
    numeralLength (chars ++ '.' :: tail) = numeralLength chars := by
  rw [numeralLength_of_starts] at less ⊢
  rw [numeralLength_of_starts]
  dsimp only at less ⊢
  rw [takeWhile_point rfl]
  generalize (chars.takeWhile Char.isDigit).length = whole at less ⊢
  have le : whole ≤ chars.length := by omega
  have some_behind : chars.drop whole ≠ [] := by
    rw [Ne, List.drop_eq_nil_iff]
    omega
  rw [List.drop_append_of_le_length le, starts_append some_behind]
  obtain ⟨d, behind, hbehind⟩ := List.exists_cons_of_ne_nil some_behind
  have length : whole + (behind.length + 1) = chars.length := by
    rw [← List.length_cons, ← hbehind, List.length_drop]
    omega
  have digits : (behind.takeWhile Char.isDigit).length ≤ behind.length :=
    (List.takeWhile_sublist _).length_le
  rw [hbehind, List.cons_append, List.drop_succ_cons, List.drop_succ_cons, List.drop_zero,
    List.drop_zero, takeWhile_point rfl]
  generalize fraction : (if starts (· == '.') (d :: behind) then
    (behind.takeWhile Char.isDigit).length + 1 else 0) = f
  have fits : whole + f ≤ chars.length := by
    split at fraction <;> omega
  rw [List.drop_append_of_le_length fits, exponentLength_point]

/-- A point goes on with at most the digits and the exponent that it has. -/
theorem fractionLength_point (chars tail : List Char) :
    fractionLength ('.' :: (chars ++ '.' :: tail)) = fractionLength ('.' :: chars) := by
  have fits : (chars.takeWhile Char.isDigit).length ≤ chars.length :=
    (List.takeWhile_sublist _).length_le
  simp only [fractionLength, List.drop_succ_cons, List.drop_zero]
  rw [takeWhile_point rfl, List.drop_append_of_le_length fits, exponentLength_point]

theorem hexLength_point (chars tail : List Char) :
    hexLength ('&' :: (chars ++ '.' :: tail)) = hexLength ('&' :: chars) := by
  cases chars with
  | nil => rfl
  | cons d chars =>
    have fits : (chars.takeWhile Number.isHexDigit).length ≤ chars.length :=
      (List.takeWhile_sublist _).length_le
    rw [List.cons_append, hexLength_cons, hexLength_cons, takeWhile_point rfl]
    dsimp only
    rw [List.drop_append_of_le_length fits, starts_point rfl]

/-- A comment that is not the whole text ends where it did. -/
theorem remarkLength_point (less : remarkLength chars < chars.length) (tail : List Char) :
    remarkLength (chars ++ '.' :: tail) = remarkLength chars := by
  induction chars with
  | nil => cases less
  | cons c chars ih =>
    rw [remarkLength_cons] at less
    rw [List.cons_append, remarkLength_cons, remarkLength_cons, ← starts_beq, ← starts_beq,
      starts_point rfl]
    rw [← starts_beq] at less
    split
    · rfl
    · rename_i goes
      rw [if_neg goes] at less
      rw [ih (Nat.lt_of_succ_lt_succ less)]

/-- A word ends where it did, and so does a comment that is not the whole text. -/
theorem ofWord_point {lexeme : Lexeme} {length : Nat} (word : ofWord chars = (lexeme, length))
    (ends : length < chars.length ∨ ∃ kind, lexeme = .token kind) (tail : List Char) :
    ofWord (chars ++ '.' :: tail) = (lexeme, length) := by
  have fits : (chars.takeWhile isWordChar).length ≤ chars.length :=
    (List.takeWhile_sublist _).length_le
  unfold ofWord at word ⊢
  dsimp only at word ⊢
  rw [takeWhile_point rfl]
  split at word
  · rename_i remark
    obtain ⟨rfl, rfl⟩ := Prod.mk.inj word
    have less := ends.resolve_right nofun
    have inner : remarkLength (chars.drop (chars.takeWhile isWordChar).length) <
        (chars.drop (chars.takeWhile isWordChar).length).length := by
      rw [List.length_drop]
      omega
    rw [if_pos remark, List.drop_append_of_le_length fits, remarkLength_point inner]
  · rename_i isWord
    rwa [if_neg isWord]

/-- A symbol that is no longer one with what stands behind it is none with a point either. -/
theorem inCode_symbol_point {s : Symbol} (hs : symbol? c = some s) (amp : c ≠ '&') (dot : c ≠ '.')
    (lt : c = '<' → (∀ tail, rest ≠ '>' :: tail) ∧ ∀ tail, rest ≠ '=' :: tail)
    (gt : c = '>' → ∀ tail, rest ≠ '=' :: tail) (tail : List Char) :
    inCode c (rest ++ '.' :: tail) = (.token (.symbol s), 0) := by
  have absent {d : Char} (hd : ∀ tail, rest ≠ d :: tail) (point : d ≠ '.') :
      ∀ e ∈ (rest ++ '.' :: tail).head?, e ≠ d := by
    rintro e he rfl
    cases rest with
    | nil => exact point (Option.some.inj he).symm
    | cons f rest =>
      obtain rfl : f = e := Option.some.inj he
      exact hd rest rfl
  unfold symbol? at hs
  split at hs
  case h_9 =>
    cases hs
    have notEq := absent (lt rfl).1 (by decide)
    have ltEq := absent (lt rfl).2 (by decide)
    refine TokenKind.inCode_lt fun d hd => ?_
    simp [TokenKind.endsBefore, notEq d hd, ltEq d hd]
  case h_10 =>
    cases hs
    have gtEq := absent (gt rfl) (by decide)
    refine TokenKind.inCode_gt fun d hd => ?_
    simp [TokenKind.endsBefore, gtEq d hd]
  case h_1 => exact absurd rfl amp
  case h_14 => exact absurd rfl dot
  case h_16 => cases hs
  all_goals
    cases hs
    rfl

/-! ## Places in front of a point -/

/-- What a place holds if that is valid, and ends before the end of the text or is a token that no point
belongs to: the same as in front of a point. -/
def StaysPointed (c : Char) (rest tail : List Char) (reading : Lexeme × Nat) : Prop :=
  reading.1.IsValid →
    (reading.2 < rest.length ∨ ∃ kind, reading.1 = .token kind ∧ kind.endsBefore '.' = true) →
      inCode c (rest ++ '.' :: tail) = reading

/-- A point belongs to a decimal number. -/
theorem endsBefore_of_ofNumeral {kind : TokenKind} (number : ofNumeral chars = .token kind)
    (valid : kind ≠ .invalid) : kind.endsBefore '.' = false := by
  rw [ofNumeral] at number
  cases h : (Number.Decimal.ofNumeral? chars).map Number.Decimal.toFloat with
  | none =>
    rw [h] at number
    cases number
    exact absurd rfl valid
  | some value =>
    rw [h] at number
    cases number
    rfl

theorem staysPointed_inCode (c : Char) (rest tail : List Char) :
    StaysPointed c rest tail (inCode c rest) := by
  fun_cases inCode c rest with
  | case1 c rest space => exact fun _ _ => if_pos space
  | case2 c rest _ letter lexeme length word =>
    intro _ ends
    dsimp only at ends
    have ends : length < (c :: rest).length ∨ ∃ kind, lexeme = .token kind := by
      rw [List.length_cons]
      obtain less | ⟨kind, same, -⟩ := ends
      · exact .inl (by omega)
      · exact .inr ⟨kind, same⟩
    rw [inCode_of_isAlpha letter, ← List.cons_append, ofWord_point word ends]
  | case3 c rest _ _ digit length =>
    intro valid ends
    obtain ⟨-, le⟩ := numeralLength_eq (.of_alike (.refl (c :: rest)))
    have less : numeralLength (c :: rest) < (c :: rest).length := by
      obtain less | ⟨kind, same, point⟩ := ends
      · have less : numeralLength (c :: rest) - 1 < rest.length := less
        rw [List.length_cons]
        omega
      · rw [same] at valid
        have number := endsBefore_of_ofNumeral same valid.1
        exact absurd (number.symm.trans point) Bool.false_ne_true
    rw [inCode_of_isDigit digit, ← List.cons_append, numeralLength_point less,
      List.take_append_of_le_length le]
  | case4 => exact fun _ _ => rfl
  | case5 =>
    rintro - (less | ⟨_, ⟨⟩, -⟩)
    exact congrArg (Prod.mk _) (remarkLength_point less tail)
  | case6 rest length text body =>
    intro _ _
    obtain ⟨front, behind, rfl, rfl, -, closed, again⟩ := exists_stringBody body
    have closed' : (behind ++ '.' :: tail).head? ≠ some '"' := by
      cases behind with
      | nil => exact fun same => absurd (Option.some.inj same) (by decide)
      | cons => exact closed
    rw [body, List.append_assoc, inCode_quote, again _ closed']
  | case7 rest length body =>
    rw [body]
    exact fun valid => absurd rfl valid.1
  | case8 rest gap behind line =>
    have fits : (rest.takeWhile isGap).length ≤ rest.length := (List.takeWhile_sublist _).length_le
    dsimp only
    rw [line, StaysPointed, inCode_underscore, takeWhile_point rfl,
      List.drop_append_of_le_length fits, line]
    exact fun _ _ => rfl
  | case9 rest gap behind line =>
    have fits : (rest.takeWhile isGap).length ≤ rest.length := (List.takeWhile_sublist _).length_le
    dsimp only
    rw [line, StaysPointed, inCode_underscore, takeWhile_point rfl,
      List.drop_append_of_le_length fits, line]
    exact fun _ _ => rfl
  | case10 rest gap line feed =>
    dsimp only
    split
    case h_1 behind h => exact absurd h (line behind)
    case h_2 behind h => exact absurd h (feed behind)
    case h_3 => exact fun valid => absurd rfl valid.1
  | case11 => exact fun valid => absurd rfl valid.2
  | case12 | case13 | case14 => exact fun _ _ => rfl
  | case15 rest _ _ _ length none =>
    rw [if_pos none, StaysPointed, inCode_amp, hexLength_point, if_pos none]
    exact fun _ _ => rfl
  | case16 rest _ _ _ length some =>
    obtain ⟨-, le⟩ := hexLength_eq (.of_alike (.refl rest))
    have fits : hexLength ('&' :: rest) - 1 ≤ rest.length := Nat.sub_le_of_le_add le
    rw [if_neg some, StaysPointed, inCode_amp, hexLength_point, if_neg some,
      List.take_append_of_le_length fits]
    exact fun _ _ => rfl
  | case17 rest _ _ _ length none =>
    rw [if_pos none, StaysPointed, inCode_dot, fractionLength_point, if_pos none]
    exact fun _ _ => rfl
  | case18 rest _ _ _ length some =>
    obtain ⟨-, le⟩ := fractionLength_eq '.' (.of_alike (.refl rest))
    rw [if_neg some, StaysPointed, inCode_dot, fractionLength_point, if_neg some,
      ← List.cons_append, List.take_append_of_le_length le]
    exact fun _ _ => rfl
  | case19 c rest _ letter _ s symbol _ _ _ _ amp dot _ notEq ltEq gtEq =>
    rw [symbol]
    intro _ _
    refine inCode_symbol_point symbol amp dot ?_ ?_ tail
    · rintro rfl
      exact ⟨fun tail => notEq tail rfl, fun tail => ltEq tail rfl⟩
    · rintro rfl
      exact fun tail => gtEq tail rfl
  | case20 c rest _ _ _ none =>
    rw [none]
    exact fun valid => absurd rfl valid.1

/-! ## Texts in front of a point -/

variable {d : Char} {cs front : List Char} {kind : TokenKind}

/-- The text is whole places of script code, the last of which is a token: no blank, no comment and no
continued line stands at its end. -/
def EndsInToken (chars : List Char) : Prop :=
  ∃ front c cs kind, chars = front ++ c :: cs ∧ Reads (c :: cs) front ∧
    inCode c cs = (.token kind, cs.length) ∧ (Lexeme.token kind).IsValid

theorem Reads.append (h : Reads (front ++ rest) chars) (h' : Reads rest front) :
    Reads rest (chars ++ front) := by
  induction h with
  | nil => exact h'
  | @cons c cs chars lexeme read valid _ ih =>
    rw [← List.append_assoc chars] at read
    rw [List.append_assoc]
    exact .cons read valid ih

/-- **A place stays in front of a point** if it ends before the end of the text, or if it is a token that
no point belongs to. -/
theorem inCode_point {lexeme : Lexeme} {more : Nat} (read : inCode c rest = (lexeme, more))
    (valid : lexeme.IsValid)
    (ends : more < rest.length ∨ ∃ kind, lexeme = .token kind ∧ kind.endsBefore '.' = true)
    (tail : List Char) : inCode c (rest ++ '.' :: tail) = (lexeme, more) := by
  have stays := staysPointed_inCode c rest tail
  rw [read] at stays
  exact stays valid ends

/-- A place with others behind it stays in front of a point. -/
theorem inCode_place_point {lexeme : Lexeme}
    (read : inCode c (cs ++ (front ++ d :: rest)) = (lexeme, cs.length)) (valid : lexeme.IsValid)
    (tail : List Char) :
    inCode c (cs ++ (front ++ (d :: rest ++ '.' :: tail))) = (lexeme, cs.length) := by
  have less : cs.length < (cs ++ (front ++ d :: rest)).length := by
    simp only [List.length_append, List.length_cons]
    omega
  have read := inCode_point read valid (.inl less) tail
  rwa [List.append_assoc, List.append_assoc] at read

theorem Reads.point (h : Reads (d :: rest) front) (tail : List Char) :
    Reads (d :: rest ++ '.' :: tail) front := by
  induction h with
  | nil => exact .nil
  | cons read valid _ ih => exact .cons (inCode_place_point read valid tail) valid ih

end Lexeme

/-! ## Tokens in front of a point -/

section

open Lexeme

variable {c d : Char} {chars cs rest front : List Char} {p q : Place} {lexeme : Lexeme}

theorem Place.kind_token (p : Place) (kind : TokenKind) (stop : Nat) : (p.token kind stop).kind = kind := rfl

/-- The tokens that the characters at a place are: one or none. -/
def Place.taken (p : Place) (lexeme : Lexeme) (chars : List Char) : List Token :=
  match lexeme with
  | .token kind => [p.token kind (p.offset + utf8Length chars)]
  | _ => []

/-- The place behind the characters. -/
def Place.behind (p : Place) (lexeme : Lexeme) (chars : List Char) : Place :=
  p.after lexeme (p.offset + utf8Length chars)

/-- What a place holds comes first, whatever stands behind it. -/
theorem tokensFrom_place (hp : p.region = .code)
    (read : inCode c (cs ++ rest) = (lexeme, cs.length)) :
    tokensFrom p (c :: cs ++ rest) =
      p.taken lexeme (c :: cs) ++ tokensFrom (p.behind lexeme (c :: cs)) rest := by
  have found : p.lexeme c (cs ++ rest) = (lexeme, cs.length) := by
    rw [Place.lexeme_code hp, read]
  rw [List.cons_append, tokensFrom_cons, found]
  dsimp only
  rw [List.take_left, List.drop_left, Nat.add_assoc]
  cases lexeme <;> rfl

theorem region_behind_of_inCode {more : Nat} (hp : p.region = .code)
    (read : inCode c rest = (lexeme, more)) (valid : lexeme.IsValid) (chars : List Char) :
    (p.behind lexeme chars).region = .code := by
  cases lexeme with
  | token kind =>
    have script := isScript_of_inCode read valid.2
    rw [Place.behind, Place.after, p.regionAfter_eq, hp]
    cases kind <;> first | rfl | cases script
  | _ => exact hp

/-- Behind a token a place is touched by what comes next. -/
theorem isCode_behind_token {kind : TokenKind} (code : (p.behind (.token kind) chars).region = .code) :
    (p.behind (.token kind) chars).IsCode ∧ (p.behind (.token kind) chars).touches = true :=
  ⟨⟨code, p.sound_behind kind _⟩, p.touches_behind kind _⟩

/-- Places with others behind them hold the same tokens in front of a point. -/
theorem Lexeme.Reads.tokensFrom_point (h : Reads (d :: rest) front) :
    ∀ {p : Place}, p.region = .code → ∃ ts q, q.region = .code ∧
      tokensFrom p (front ++ d :: rest) = ts ++ tokensFrom q (d :: rest) ∧
      ∀ tail, tokensFrom p (front ++ (d :: rest ++ '.' :: tail)) =
        ts ++ tokensFrom q (d :: rest ++ '.' :: tail) := by
  induction h with
  | nil => exact fun {p} hp => ⟨[], p, hp, rfl, fun _ => rfl⟩
  | @cons c cs front lexeme read valid _ ih =>
    intro p hp
    obtain ⟨ts, q, hq, further, pointed⟩ := ih (region_behind_of_inCode hp read valid (c :: cs))
    refine ⟨p.taken lexeme (c :: cs) ++ ts, q, hq, ?_, fun tail => ?_⟩
    · rw [List.append_assoc (c :: cs), tokensFrom_place hp read, further, List.append_assoc]
    · rw [List.append_assoc (c :: cs), tokensFrom_place hp (inCode_place_point read valid tail),
        pointed, List.append_assoc]

/-- **A point behind a text leaves its tokens**, unless the last one is a number. -/
theorem Lexeme.EndsInToken.tokensFrom_point (h : EndsInToken chars) (hp : p.region = .code)
    {xs : List Token} {last : Token} (tokens : tokensFrom p chars = xs ++ [last])
    (point : ∀ t ∈ xs.getLast?, t.kind.endsBefore '.' = true) :
    (∀ tail, Reads ('.' :: tail) chars) ∧ ∃ q : Place, q.IsCode ∧ q.touches = true ∧
      ∀ tail, tokensFrom p (chars ++ '.' :: tail) = xs ++ tokensFrom q ('.' :: tail) := by
  obtain ⟨front, c, cs, kind, rfl, reads, read, valid⟩ := h
  obtain ⟨ts, q, hq, here, pointed⟩ := reads.tokensFrom_point hp
  generalize ht : q.token kind (q.offset + utf8Length (c :: cs)) = t
  have taken : q.taken (.token kind) (c :: cs) = [t] := ht ▸ rfl
  -- The last place is the last token, and what is behind it is the end.
  obtain rfl : xs = ts ++ [t] := by
    have alone : tokensFrom q (c :: cs ++ []) = _ := tokensFrom_place hq (by rwa [List.append_nil])
    rw [List.append_nil, taken, tokensFrom_nil] at alone
    rw [here, alone, ← List.append_assoc] at tokens
    exact (List.append_inj_left' tokens rfl).symm
  have point : kind.endsBefore '.' = true := by
    have same : t.kind = kind := ht ▸ q.kind_token _ _
    exact same ▸ point t (by simp)
  have read (tail : List Char) := inCode_point read valid (.inr ⟨kind, rfl, point⟩) tail
  obtain ⟨code, touches⟩ := isCode_behind_token (region_behind_of_inCode hq (read []) valid (c :: cs))
  refine ⟨fun tail => ?_, q.behind (.token kind) (c :: cs), code, touches, fun tail => ?_⟩
  · have last : Reads ('.' :: tail) (c :: cs ++ []) := .cons (read tail) valid .nil
    rw [List.append_nil] at last
    exact (reads.point tail).append last
  · rw [List.append_assoc, pointed, tokensFrom_place hq (read tail), taken, List.append_assoc]

theorem Lexeme.isValid_ofWord (word : List Char) : (Lexeme.token (TokenKind.ofWord word)).IsValid := by
  unfold TokenKind.ofWord
  cases Keyword.ofSpelling? (foldCase (String.ofList word)) <;> exact ⟨nofun, nofun⟩

/-- A word is a token, with any text behind it that does not go on with it. -/
theorem tokensFrom_word (hp : p.IsCode) {word : List Char} (hword : IsWord word) :
    ∃ (t : Token) (q : Place), t.kind = TokenKind.ofWord word ∧ q.IsCode ∧
      ∀ behind, (TokenKind.ofWord word).EndsAt behind →
        tokensFrom p (word ++ behind) = t :: tokensFrom q behind := by
  have nothing : (TokenKind.ofWord word).EndsAt [] := nofun
  obtain ⟨c, cs, rfl, read⟩ := TokenKind.inCode_word hword nothing
  have code := region_behind_of_inCode hp.code read (isValid_ofWord _) (c :: cs)
  refine ⟨p.token (TokenKind.ofWord (c :: cs)) (p.offset + utf8Length (c :: cs)), _, p.kind_token _ _,
    (isCode_behind_token code).1, fun behind ends => ?_⟩
  obtain ⟨d, ds, same, read⟩ := TokenKind.inCode_word hword ends
  obtain ⟨rfl, rfl⟩ := List.cons.inj same
  exact tokensFrom_place hp.code read

/-- A point in front of a letter is a token of its own. -/
theorem Lexeme.inCode_dot_word {word : List Char} (letter : ∃ c cs, word = c :: cs ∧ c.isAlpha = true)
    (behind : List Char) : inCode '.' (word ++ behind) = (.token (.symbol .dot), 0) := by
  refine TokenKind.inCode_dot fun d hd => ?_
  obtain ⟨c, cs, rfl, letter⟩ := letter
  obtain rfl : c = d := Option.some.inj hd
  rw [TokenKind.endsBefore, not_isDigit_of_isAlpha letter]
  rfl

/-- A point and a word behind it are two tokens, whatever the word is. -/
theorem tokensFrom_member (hp : p.IsCode) {word : List Char} (hword : IsWord word) :
    ∃ (dot member : Token) (q : Place), dot.kind = .symbol .dot ∧ dot.adjacent = p.touches ∧
      member.kind = TokenKind.ofWord word ∧ ∀ behind, (TokenKind.ofWord word).EndsAt behind →
        tokensFrom p ('.' :: (word ++ behind)) = dot :: member :: tokensFrom q behind := by
  have code := region_behind_of_inCode hp.code (inCode_dot_word hword.letter []) ⟨nofun, nofun⟩ ['.']
  obtain ⟨member, q, kind, -, tokens⟩ := tokensFrom_word (isCode_behind_token code).1 hword
  refine ⟨p.token (.symbol .dot) (p.offset + utf8Length ['.']), member, q, p.kind_token _ _,
    rfl, kind, fun behind ends => ?_⟩
  have first : tokensFrom p ('.' :: [] ++ (word ++ behind)) = _ :=
    tokensFrom_place hp.code (inCode_dot_word hword.letter behind)
  exact first.trans (congrArg _ (tokens behind ends))

/-- The word that starts a comment is no token behind a point. -/
theorem tokensFrom_rem (hp : p.IsCode) {word : List Char} (rem : foldCase (String.ofList word) = "rem") :
    ∃ (dot : Token) (q : Place), dot.kind = .symbol .dot ∧
      tokensFrom p ('.' :: word) = [dot, q.endToken] := by
  obtain ⟨c, cs, rfl, letter, -⟩ := exists_rem rem
  have point := inCode_dot_word ⟨c, cs, rfl, letter⟩ []
  have code := region_behind_of_inCode hp.code point ⟨nofun, nofun⟩ ['.']
  have mark : IsCommentMark ([] ++ []) (c :: cs) := .word rem nofun
  have comment : IsLayout [] (c :: cs ++ []) := .comment mark nofun (by decide) (.inl rfl)
  obtain ⟨q, -, -, -, nothing⟩ := tokensFrom_layout (isCode_behind_token code).1 comment
  have first : tokensFrom p ('.' :: [] ++ (c :: cs ++ [])) = _ := tokensFrom_place hp.code point
  rw [List.append_nil, tokensFrom_nil] at nothing
  rw [nothing, List.append_nil] at first
  exact ⟨_, q, p.kind_token (.symbol .dot) _, first⟩

theorem Lexeme.EndsInToken.of_word {word : List Char} (reads : Reads word front) (hword : IsWord word) :
    EndsInToken (front ++ word) := by
  have nothing : (TokenKind.ofWord word).EndsAt [] := nofun
  obtain ⟨c, cs, rfl, read⟩ := TokenKind.inCode_word hword nothing
  rw [List.append_nil] at read
  exact ⟨front, c, cs, TokenKind.ofWord (c :: cs), rfl, reads, read, isValid_ofWord _⟩

/-- A text of whole places ends in a token if a point and a word stand at its end. -/
theorem Lexeme.EndsInToken.of_member {word : List Char} (reads : Reads ('.' :: word) front)
    (hword : IsWord word) : EndsInToken (front ++ '.' :: word) := by
  have dot : inCode '.' ([] ++ word) = (.token (.symbol .dot), 0) := by
    have dot := inCode_dot_word hword.letter []
    rwa [List.append_nil] at dot
  have reads' : Reads word (front ++ ['.']) := Reads.append reads (.one dot ⟨nofun, nofun⟩ .nil)
  have ends := EndsInToken.of_word reads' hword
  rwa [List.append_assoc, List.singleton_append] at ends

end

end PageScript
