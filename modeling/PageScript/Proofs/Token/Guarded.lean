import PageScript.Proofs.Token.Folding
import PageScript.Proofs.Token.Pieces
import PageScript.Proofs.Token.Spelling

/-!
# Proofs/Token/Guarded — a token does not depend on what stands behind its end

A blank, the end of a line, an apostrophe and a percent sign end every token but a string.  Two texts
that are alike up to such characters, whatever these are and whatever stands behind them, hold the
same token at the front, and it does not go on beyond them (`Lexeme.inCode_guarded`).  Where two texts
are alike as a whole it is the end of the text that ends the last token.
-/

namespace PageScript

/-- Whether a character ends any token but a string. -/
def Lexeme.isStop (c : Char) : Bool := isSpace c || c == '\n' || c == '\x27' || c == '%'

/-- A text that is empty or starts with a character that ends a token. -/
def Lexeme.Stops (chars : List Char) : Prop := ∀ c ∈ chars.head?, isStop c = true

/-- Two texts that are alike for some characters, and then stop. -/
inductive Guarded : Nat → List Char → List Char → Prop
  | stop {behind behind' : List Char} (h : Lexeme.Stops behind) (h' : Lexeme.Stops behind') :
      Guarded 0 behind behind'
  | cons {c c' : Char} {n : Nat} {chars chars' : List Char} (head : SameLetter c c')
      (tail : Guarded n chars chars') : Guarded (n + 1) (c :: chars) (c' :: chars')

namespace Lexeme

variable {c d : Char}

theorem isStop_iff : isStop c = true ↔
    c = ' ' ∨ c = '\t' ∨ c = '\r' ∨ c = '\x0c' ∨ c = '\n' ∨ c = '\x27' ∨ c = '%' := by
  simp only [isStop, isSpace, Bool.or_eq_true, beq_iff_eq, or_assoc]

/-- A property that case does not matter to and that no character has that ends a token. -/
structure Inner (p : Char → Bool) : Prop where
  same : ∀ {c c'}, SameLetter c c' → p c' = p c
  stop : ∀ c, isStop c = true → p c = false

theorem inner_isDigit : Inner Char.isDigit where
  same := SameLetter.isDigit_eq
  stop c hc := by rcases isStop_iff.mp hc with rfl | rfl | rfl | rfl | rfl | rfl | rfl <;> rfl

theorem inner_isHexDigit : Inner Number.isHexDigit where
  same := SameLetter.isHexDigit_eq
  stop c hc := by rcases isStop_iff.mp hc with rfl | rfl | rfl | rfl | rfl | rfl | rfl <;> rfl

theorem inner_isWordChar : Inner isWordChar where
  same := SameLetter.isWordChar_eq
  stop c hc := by rcases isStop_iff.mp hc with rfl | rfl | rfl | rfl | rfl | rfl | rfl <;> rfl

theorem inner_beq (hd : d.isAlpha = false) (hstop : isStop d = false) : Inner (· == d) where
  same h := h.beq_eq hd
  stop _ hc := beq_eq_false_iff_ne.mpr fun same => Bool.false_ne_true (hstop.symm.trans (same ▸ hc))

/-- Whether a text starts with a character that has a property. -/
def starts (p : Char → Bool) (chars : List Char) : Bool := chars.head?.any p

theorem starts_beq (d : Char) (chars : List Char) :
    starts (· == d) chars = (chars.head? == some d) := by
  cases chars <;> simp [starts]

theorem starts_eq_false_of_stops {p : Char → Bool} (hp : Inner p) {chars : List Char}
    (h : Stops chars) : starts p chars = false := by
  cases chars with
  | nil => rfl
  | cons c chars => exact hp.stop c (h c rfl)

end Lexeme

namespace Guarded

open Lexeme

variable {n k : Nat} {front front' chars chars' behind behind' : List Char} {p : Char → Bool}

theorem append (h : Alike front front') (hbehind : Guarded n behind behind') :
    Guarded (front.length + n) (front ++ behind) (front' ++ behind') := by
  induction h with
  | nil => exact (Nat.zero_add n).symm ▸ hbehind
  | cons head _ ih =>
    rw [List.length_cons, Nat.succ_add]
    exact .cons head ih

theorem of_alike (h : Alike chars chars') : Guarded chars.length chars chars' := by
  have stopped : Guarded 0 [] [] := .stop nofun nofun
  have guarded := append h stopped
  rwa [List.append_nil, List.append_nil] at guarded

theorem drop (h : Guarded n chars chars') (hk : k ≤ n) :
    Guarded (n - k) (chars.drop k) (chars'.drop k) := by
  induction h generalizing k with
  | stop h h' =>
    obtain rfl := Nat.le_zero.mp hk
    exact .stop h h'
  | cons head tail ih =>
    cases k with
    | zero => exact .cons head tail
    | succ k =>
      rw [Nat.add_sub_add_right]
      exact ih (Nat.le_of_succ_le_succ hk)

theorem take (h : Guarded n chars chars') (hk : k ≤ n) : Alike (chars.take k) (chars'.take k) := by
  induction h generalizing k with
  | stop =>
    obtain rfl := Nat.le_zero.mp hk
    exact .nil
  | cons head _ ih =>
    cases k with
    | zero => exact .nil
    | succ k => exact .cons head (ih (Nat.le_of_succ_le_succ hk))

/-- A character that ends no token stands in front of both texts or of neither. -/
theorem starts_eq (h : Guarded n chars chars') (hp : Inner p) : starts p chars' = starts p chars := by
  cases h with
  | stop h h' => rw [starts_eq_false_of_stops hp h, starts_eq_false_of_stops hp h']
  | cons head => exact hp.same head

/-- Where one stands the texts go on alike. -/
theorem pos_of_starts (h : Guarded n chars chars') (hp : Inner p) (hstarts : starts p chars = true) :
    1 ≤ n := by
  cases h with
  | stop h => exact absurd hstarts (Bool.eq_false_iff.mp (starts_eq_false_of_stops hp h))
  | cons => exact Nat.succ_le_succ (Nat.zero_le _)

/-- Where a character stands that ends no token, it stands in both texts. -/
theorem cons_inv {d : Char} (h : Guarded n (d :: chars) chars') (hd : d.isAlpha = false)
    (hstop : isStop d = false) : ∃ rest', chars' = d :: rest' ∧ 1 ≤ n := by
  cases h with
  | stop h => exact absurd (h d rfl) (Bool.eq_false_iff.mp hstop)
  | cons head =>
    obtain rfl := head.eq_of_not_isAlpha hd
    exact ⟨_, rfl, Nat.succ_le_succ (Nat.zero_le _)⟩

/-- A run of characters ends where the texts stop at the latest. -/
theorem takeWhile (h : Guarded n chars chars') (hp : Inner p) :
    (chars'.takeWhile p).length = (chars.takeWhile p).length ∧ (chars.takeWhile p).length ≤ n := by
  induction h with
  | stop h h' =>
    have none {chars : List Char} (h : Stops chars) : chars.takeWhile p = [] := by
      cases chars with
      | nil => rfl
      | cons c chars => exact List.takeWhile_cons_of_neg (hp.stop c (h c rfl) ▸ Bool.false_ne_true)
    rw [none h, none h']
    exact ⟨rfl, Nat.le_refl 0⟩
  | @cons c c' _ _ _ head _ ih =>
    rw [List.takeWhile_cons, List.takeWhile_cons, hp.same head]
    cases p c with
    | true => exact ⟨congrArg (· + 1) ih.1, Nat.succ_le_succ ih.2⟩
    | false => exact ⟨rfl, Nat.zero_le _⟩

end Guarded

namespace Lexeme

variable {n k : Nat} {chars chars' : List Char} {c c' : Char}

/-! ## Numbers -/

theorem exponentLength_cons (e : Char) (rest : List Char) : exponentLength (e :: rest) =
    if e == 'e' || e == 'E' then
      let signed := starts (· == '+') rest || starts (· == '-') rest
      let digits := ((if signed then rest.drop 1 else rest).takeWhile Char.isDigit).length
      if digits = 0 then 0 else digits + if signed then 2 else 1
    else 0 := by
  cases rest <;> rfl

/-- An exponent ends where the texts stop at the latest. -/
theorem exponentLength_eq (h : Guarded n chars chars') :
    exponentLength chars' = exponentLength chars ∧ exponentLength chars ≤ n := by
  cases h with
  | stop h h' =>
    have none {chars : List Char} (h : Stops chars) : exponentLength chars = 0 := by
      cases chars with
      | nil => rfl
      | cons c chars =>
        rw [exponentLength_cons]
        rcases isStop_iff.mp (h c rfl) with rfl | rfl | rfl | rfl | rfl | rfl | rfl <;> rfl
    rw [none h, none h']
    exact ⟨rfl, Nat.le_refl 0⟩
  | @cons e e' n chars chars' head h =>
    have plus := inner_beq (d := '+') (by decide) (by decide)
    have minus := inner_beq (d := '-') (by decide) (by decide)
    rw [exponentLength_cons, exponentLength_cons, head.letter_eq 'e' 'E' (by decide) rfl,
      h.starts_eq plus, h.starts_eq minus]
    split
    · dsimp only
      cases signed : starts (· == '+') chars || starts (· == '-') chars with
      | true =>
        have one : 1 ≤ n := (Bool.or_eq_true_iff.mp signed).elim (h.pos_of_starts plus)
          (h.pos_of_starts minus)
        obtain ⟨digits, le⟩ := (h.drop one).takeWhile inner_isDigit
        simp only [if_true, digits]
        refine ⟨trivial, ?_⟩
        split <;> omega
      | false =>
        obtain ⟨digits, le⟩ := h.takeWhile inner_isDigit
        simp only [Bool.false_eq_true, if_false, digits]
        refine ⟨trivial, ?_⟩
        split <;> omega
    · exact ⟨rfl, Nat.zero_le _⟩

theorem numeralLength_of_starts (chars : List Char) : numeralLength chars =
    let whole := (chars.takeWhile Char.isDigit).length
    let fraction := if starts (· == '.') (chars.drop whole) then
      (((chars.drop whole).drop 1).takeWhile Char.isDigit).length + 1 else 0
    whole + fraction + exponentLength (chars.drop (whole + fraction)) := by
  rw [numeralLength]
  dsimp only
  split
  · rename_i heq
    simp only [heq, starts, List.head?_cons, Option.any_some, beq_self_eq_true, if_true,
      List.drop_succ_cons, List.drop_zero]
  · rename_i unpointed
    rw [if_neg]
    rw [starts_beq, beq_iff_eq, List.head?_eq_some_iff]
    rintro ⟨rest, h⟩
    exact unpointed rest h

theorem numeralLength_eq (h : Guarded n chars chars') :
    numeralLength chars' = numeralLength chars ∧ numeralLength chars ≤ n := by
  have point := inner_beq (d := '.') (by decide) (by decide)
  obtain ⟨whole, le⟩ := h.takeWhile inner_isDigit
  have behind := h.drop le
  have fraction : ∃ fraction, (if starts (· == '.')
        (chars'.drop (chars.takeWhile Char.isDigit).length) then
      (((chars'.drop (chars.takeWhile Char.isDigit).length).drop 1).takeWhile Char.isDigit).length + 1
      else 0) = fraction ∧ (if starts (· == '.')
        (chars.drop (chars.takeWhile Char.isDigit).length) then
      (((chars.drop (chars.takeWhile Char.isDigit).length).drop 1).takeWhile Char.isDigit).length + 1
      else 0) = fraction ∧ fraction ≤ n - (chars.takeWhile Char.isDigit).length := by
    rw [behind.starts_eq point]
    cases starts : starts (· == '.') (chars.drop (chars.takeWhile Char.isDigit).length) with
    | true =>
      have one := behind.pos_of_starts point starts
      obtain ⟨digits, le'⟩ := (behind.drop one).takeWhile inner_isDigit
      exact ⟨_, congrArg (· + 1) digits, rfl, by omega⟩
    | false => exact ⟨0, rfl, rfl, Nat.zero_le _⟩
  obtain ⟨fraction, hfraction', hfraction, le'⟩ := fraction
  rw [numeralLength_of_starts, numeralLength_of_starts]
  simp only [whole, hfraction, hfraction']
  obtain ⟨exponent, le''⟩ := exponentLength_eq (h.drop
    (show (chars.takeWhile Char.isDigit).length + fraction ≤ n by omega))
  rw [exponent]
  exact ⟨rfl, by omega⟩

theorem fractionLength_eq (c : Char) (h : Guarded n chars chars') :
    fractionLength (c :: chars') = fractionLength (c :: chars) ∧
      fractionLength (c :: chars) ≤ n + 1 := by
  obtain ⟨digits, le⟩ := h.takeWhile inner_isDigit
  obtain ⟨exponent, le'⟩ := exponentLength_eq (h.drop le)
  simp only [fractionLength, List.drop_succ_cons, List.drop_zero, digits, exponent]
  refine ⟨trivial, ?_⟩
  split <;> omega

theorem hexLength_cons (d : Char) (rest : List Char) : hexLength ('&' :: d :: rest) =
    if d == 'h' || d == 'H' then
      let digits := (rest.takeWhile Number.isHexDigit).length
      if digits = 0 then 0 else digits + 2 + if starts (· == '&') (rest.drop digits) then 1 else 0
    else 0 := by
  rw [hexLength]
  simp only [starts_beq, List.head?_drop]

theorem hexLength_eq (h : Guarded n chars chars') :
    hexLength ('&' :: chars') = hexLength ('&' :: chars) ∧ hexLength ('&' :: chars) ≤ n + 1 := by
  cases h with
  | stop h h' =>
    have none {chars : List Char} (h : Stops chars) : hexLength ('&' :: chars) = 0 := by
      cases chars with
      | nil => rfl
      | cons c chars =>
        rcases isStop_iff.mp (h c rfl) with rfl | rfl | rfl | rfl | rfl | rfl | rfl <;> rfl
    rw [none h, none h']
    exact ⟨rfl, Nat.zero_le _⟩
  | @cons d d' n chars chars' head h =>
    have amp := inner_beq (d := '&') (by decide) (by decide)
    obtain ⟨digits, le⟩ := h.takeWhile inner_isHexDigit
    have behind := h.drop le
    rw [hexLength_cons, hexLength_cons, head.letter_eq 'h' 'H' (by decide) rfl]
    simp only [digits, behind.starts_eq amp]
    refine ⟨trivial, ?_⟩
    cases closed : starts (· == '&') (chars.drop (chars.takeWhile Number.isHexDigit).length) with
    | true =>
      have one := behind.pos_of_starts amp closed
      split
      · split
        · omega
        · rw [if_pos rfl]
          omega
      · omega
    | false =>
      split
      · split
        · omega
        · rw [if_neg Bool.false_ne_true]
          omega
      · omega

/-! ## Words -/

theorem length_takeWhile_take {p : Char → Bool} (chars : List Char) :
    chars.take (chars.takeWhile p).length = chars.takeWhile p :=
  (List.prefix_iff_eq_take.mp (List.takeWhile_prefix p)).symm

/-- A word that starts no comment ends where the texts stop at the latest. -/
theorem ofWord_eq (h : Guarded n chars chars') {kind : TokenKind} {length : Nat}
    (word : ofWord chars = (.token kind, length)) :
    ofWord chars' = (.token kind, length) ∧ length ≤ n := by
  obtain ⟨letters, le⟩ := h.takeWhile inner_isWordChar
  have alike := h.take le
  rw [length_takeWhile_take, ← letters, length_takeWhile_take] at alike
  have name : Name.ofString (String.ofList (chars'.takeWhile isWordChar)) =
      Name.ofString (String.ofList (chars.takeWhile isWordChar)) :=
    Name.ofString_eq_iff.mpr alike.foldCase_eq
  rw [ofWord] at word ⊢
  dsimp only at word ⊢
  rw [alike.foldCase_eq, name, letters]
  split at word
  · cases word
  · rename_i isWord
    rw [if_neg isWord]
    obtain ⟨-, rfl⟩ := Prod.mk.inj word
    exact ⟨word, le⟩

/-! ## Tokens -/

theorem inCode_of_isAlpha (hc : c.isAlpha = true) (rest : List Char) :
    inCode c rest = ((ofWord (c :: rest)).1, (ofWord (c :: rest)).2 - 1) := by
  have space := not_isSpace_of_isWordChar (isWordChar_of_isAlpha hc)
  unfold inCode
  rw [space, if_neg Bool.false_ne_true, if_pos hc]

theorem inCode_of_isDigit (hc : c.isDigit = true) (rest : List Char) :
    inCode c rest = (ofNumeral ((c :: rest).take (numeralLength (c :: rest))),
      numeralLength (c :: rest) - 1) := by
  have space := not_isSpace_of_isWordChar (isWordChar_of_isDigit hc)
  unfold inCode
  rw [space, if_neg Bool.false_ne_true, not_isAlpha_of_isDigit hc, if_neg Bool.false_ne_true,
    if_pos hc]

theorem ofNumeral_eq (h : Alike chars chars') : ofNumeral chars' = ofNumeral chars := by
  rw [ofNumeral, ofNumeral, h.ofNumeral?_eq]

theorem inCode_amp (rest : List Char) : inCode '&' rest =
    if hexLength ('&' :: rest) = 0 then (.token (.symbol .amp), 0)
    else (numberToken (Number.ofHexDigits? (((rest.take (hexLength ('&' :: rest) - 1)).drop 1).filter
      (· != '&'))), hexLength ('&' :: rest) - 1) :=
  rfl

theorem inCode_dot (rest : List Char) : inCode '.' rest =
    if fractionLength ('.' :: rest) = 0 then (.token (.symbol .dot), 0)
    else (ofNumeral (('.' :: rest).take (fractionLength ('.' :: rest))),
      fractionLength ('.' :: rest) - 1) :=
  rfl

theorem inCode_symbol_guarded (h : Guarded n rest rest') {s : Symbol} (hs : symbol? c = some s)
    (amp : c ≠ '&') (dot : c ≠ '.')
    (lt : c = '<' → (∀ tail, rest ≠ '>' :: tail) ∧ ∀ tail, rest ≠ '=' :: tail)
    (gt : c = '>' → ∀ tail, rest ≠ '=' :: tail) :
    inCode c rest' = (.token (.symbol s), 0) := by
  have absent {d : Char} (hd : d.isAlpha = false) (hstop : isStop d = false)
      (hrest : ∀ tail, rest ≠ d :: tail) : ∀ e ∈ rest'.head?, e ≠ d := by
    have same := h.starts_eq (inner_beq hd hstop)
    rw [starts_beq, starts_beq] at same
    rintro e he rfl
    rw [Option.mem_def.mp he, beq_self_eq_true, eq_comm, beq_iff_eq] at same
    obtain ⟨tail, rfl⟩ := List.head?_eq_some_iff.mp same
    exact hrest tail rfl
  unfold symbol? at hs
  split at hs
  case h_9 =>
    cases hs
    have notEq := absent (by decide) (by decide) (lt rfl).1
    have ltEq := absent (by decide) (by decide) (lt rfl).2
    refine TokenKind.inCode_lt fun d hd => ?_
    simp [TokenKind.endsBefore, notEq d hd, ltEq d hd]
  case h_10 =>
    cases hs
    have gtEq := absent (by decide) (by decide) (gt rfl)
    refine TokenKind.inCode_gt fun d hd => ?_
    simp [TokenKind.endsBefore, gtEq d hd]
  case h_1 => exact absurd rfl amp
  case h_14 => exact absurd rfl dot
  case h_16 => cases hs
  all_goals
    cases hs
    rfl

/-- What a place holds if that is a valid token: the same as in front of another rest of the text, and
no more than goes on alike there. -/
def Stays (n : Nat) (c' : Char) (rest' : List Char) (reading : Lexeme × Nat) : Prop :=
  ∀ kind, reading.1 = .token kind → kind ≠ .invalid → kind ≠ .closeCode →
    inCode c' rest' = reading ∧ reading.2 ≤ n

theorem stays_inCode (h : Guarded n rest rest') (head : SameLetter c c') (quote : c ≠ '"') :
    Stays n c' rest' (inCode c rest) := by
  fun_cases inCode c rest with
  | case1 => rintro _ ⟨⟩
  | case2 c rest _ letter lexeme length word =>
    rintro kind rfl valid code
    obtain ⟨word', le⟩ := ofWord_eq (.cons head h) word
    rw [inCode_of_isAlpha (head.isAlpha_eq.trans letter), word']
    exact ⟨rfl, Nat.sub_le_of_le_add le⟩
  | case3 c rest _ _ digit =>
    rintro kind - valid code
    have guarded := Guarded.cons head h
    obtain ⟨length, le⟩ := numeralLength_eq guarded
    rw [inCode_of_isDigit (head.isDigit_eq.trans digit), length, ofNumeral_eq (guarded.take le)]
    exact ⟨rfl, Nat.sub_le_of_le_add le⟩
  | case4 =>
    obtain rfl := head.eq_of_not_isAlpha (by decide)
    exact fun kind _ _ _ => ⟨rfl, Nat.zero_le n⟩
  | case5 => rintro _ ⟨⟩
  | case6 | case7 => exact absurd rfl quote
  | case8 rest gap behind hline =>
    dsimp only
    rw [hline]
    rintro _ ⟨⟩
  | case9 rest gap behind hline =>
    dsimp only
    rw [hline]
    rintro _ ⟨⟩
  | case10 rest gap hline hreturn =>
    dsimp only
    split
    case h_1 behind h => exact absurd h (hline behind)
    case h_2 behind h => exact absurd h (hreturn behind)
    case h_3 =>
      rintro kind ⟨⟩ valid
      exact absurd rfl valid
  | case11 =>
    rintro kind ⟨⟩ - code
    exact absurd rfl code
  | case12 rest =>
    obtain rfl := head.eq_of_not_isAlpha (by decide)
    obtain ⟨rest', rfl, one⟩ := h.cons_inv (by decide) (by decide)
    exact fun kind _ _ _ => ⟨rfl, one⟩
  | case13 rest =>
    obtain rfl := head.eq_of_not_isAlpha (by decide)
    obtain ⟨rest', rfl, one⟩ := h.cons_inv (by decide) (by decide)
    exact fun kind _ _ _ => ⟨rfl, one⟩
  | case14 rest =>
    obtain rfl := head.eq_of_not_isAlpha (by decide)
    obtain ⟨rest', rfl, one⟩ := h.cons_inv (by decide) (by decide)
    exact fun kind _ _ _ => ⟨rfl, one⟩
  | case15 rest _ _ _ length hlength =>
    obtain rfl := head.eq_of_not_isAlpha (by decide)
    obtain ⟨same, -⟩ := hexLength_eq h
    rw [if_pos hlength, Stays, inCode_amp, same, if_pos hlength]
    exact fun kind _ _ _ => ⟨rfl, Nat.zero_le n⟩
  | case16 rest _ _ _ length hlength =>
    obtain rfl := head.eq_of_not_isAlpha (by decide)
    obtain ⟨same, le⟩ := hexLength_eq h
    have le := Nat.sub_le_of_le_add le
    have digits := ((h.take le).drop 1).filter_ne (d := '&') (by decide)
    rw [if_neg hlength, Stays, inCode_amp, same, if_neg hlength, digits.ofHexDigits?_eq]
    exact fun kind _ _ _ => ⟨rfl, le⟩
  | case17 rest _ _ _ length hlength =>
    obtain rfl := head.eq_of_not_isAlpha (by decide)
    obtain ⟨same, -⟩ := fractionLength_eq '.' h
    rw [if_pos hlength, Stays, inCode_dot, same, if_pos hlength]
    exact fun kind _ _ _ => ⟨rfl, Nat.zero_le n⟩
  | case18 rest _ _ _ length hlength =>
    obtain rfl := head.eq_of_not_isAlpha (by decide)
    obtain ⟨same, le⟩ := fractionLength_eq '.' h
    rw [if_neg hlength, Stays, inCode_dot, same, if_neg hlength,
      ofNumeral_eq ((Guarded.cons (.refl '.') h).take le)]
    exact fun kind _ _ _ => ⟨rfl, Nat.sub_le_of_le_add le⟩
  | case19 c rest _ letter _ s hsymbol _ _ _ _ amp dot _ notEq ltEq gtEq =>
    obtain rfl := head.eq_of_not_isAlpha (Bool.eq_false_iff.mpr letter)
    rw [hsymbol]
    refine fun kind _ _ _ => ⟨inCode_symbol_guarded h hsymbol amp dot ?_ ?_, Nat.zero_le n⟩
    · rintro rfl
      exact ⟨fun tail => notEq tail rfl, fun tail => ltEq tail rfl⟩
    · rintro rfl
      exact fun tail => gtEq tail rfl
  | case20 c rest _ _ _ hsymbol =>
    rw [hsymbol]
    rintro kind ⟨⟩ valid
    exact absurd rfl valid

/-- **A valid token stays** in front of what ends one as well, and does not go on into that. -/
theorem inCode_guarded (h : Guarded n rest rest') (head : SameLetter c c') (quote : c ≠ '"')
    {kind : TokenKind} {more : Nat} (read : inCode c rest = (.token kind, more))
    (valid : kind ≠ .invalid) (code : kind ≠ .closeCode) :
    inCode c' rest' = (.token kind, more) ∧ more ≤ n := by
  have stays := stays_inCode h head quote
  rw [read] at stays
  exact stays kind rfl valid code

/-! ## Strings -/

/-- A string ends with its closing quote: it is the same in front of whatever is no further quote. -/
theorem exists_stringBody {text : List Char} (h : stringBody chars = (k, some text)) :
    ∃ body behind, chars = body ++ behind ∧ body.length = k ∧ '\n' ∉ body ∧
      behind.head? ≠ some '"' ∧
      ∀ behind', behind'.head? ≠ some '"' → stringBody (body ++ behind') = (k, some text) := by
  obtain ⟨behind, rfl, rfl, line, closed⟩ := eq_of_stringBody h
  refine ⟨doubleQuotes text ++ ['"'], behind, rfl, rfl, ?_, closed, fun behind' h => ?_⟩
  · simp [lineBreak_notMem_doubleQuotes line]
  · have closes : ∀ c ∈ behind'.head?, c ≠ '"' := fun c hc same => h (same ▸ hc)
    rw [List.append_assoc, List.singleton_append, stringBody_doubleQuotes line closes,
      List.length_append, List.length_singleton]

theorem inCode_quote (rest : List Char) : inCode '"' rest =
    match stringBody rest with
    | (length, some text) => (.token (.string (String.ofList text)), length)
    | (length, none) => (.token .invalid, length) :=
  rfl

/-! ## Every token -/

theorem exists_string {rest : List Char} {kind : TokenKind} {more : Nat}
    (read : inCode '"' rest = (.token kind, more)) (valid : kind ≠ .invalid) :
    ∃ text, kind = .string (String.ofList text) ∧ stringBody rest = (more, some text) := by
  rw [inCode_quote] at read
  split at read
  · rename_i text body
    cases read
    exact ⟨text, rfl, body⟩
  · cases read
    exact absurd rfl valid

/-- **A valid token is read from the characters that it takes**, in front of every rest that is like
the one it has or stops it as well. -/
theorem inCode_again {cs behind behind' : List Char} {kind : TokenKind}
    (read : inCode c (cs ++ behind) = (.token kind, cs.length)) (valid : kind ≠ .invalid)
    (code : kind ≠ .closeCode) (h : Guarded n behind behind') :
    inCode c (cs ++ behind') = (.token kind, cs.length) := by
  by_cases quote : c = '"'
  · subst quote
    obtain ⟨text, rfl, body⟩ := exists_string read valid
    obtain ⟨cs', behind₀, hchars, length, -, closed, again⟩ := exists_stringBody body
    obtain ⟨rfl, rfl⟩ := List.append_inj hchars length.symm
    have closed' : behind'.head? ≠ some '"' := by
      have same := h.starts_eq (inner_beq (d := '"') (by decide) (by decide))
      rw [starts_beq, starts_beq, beq_eq_false_iff_ne.mpr closed, beq_eq_false_iff_ne] at same
      exact same
    rw [inCode_quote, again behind' closed']
  · exact (inCode_guarded (.append (.refl cs) h) (.refl c) quote read valid code).1

/-- A valid token does not go on over the end of a line, unless it is that. -/
theorem le_of_lineBreak {front behind : List Char} {kind : TokenKind} {more : Nat}
    (read : inCode c (front ++ '\n' :: behind) = (.token kind, more)) (valid : kind ≠ .invalid)
    (code : kind ≠ .closeCode) : more ≤ front.length := by
  by_cases quote : c = '"'
  · subst quote
    obtain ⟨text, rfl, body⟩ := exists_string read valid
    obtain ⟨cs, behind₀, hchars, rfl, line, -, -⟩ := exists_stringBody body
    by_contra longer
    have covered : front ++ ['\n'] <+: cs := by
      refine List.prefix_of_prefix_length_le ⟨behind, ?_⟩ (List.prefix_append cs behind₀) ?_
      · rw [List.append_assoc, List.singleton_append, hchars]
      · rw [List.length_append, List.length_singleton]
        omega
    exact line (covered.subset (List.mem_append_right front List.mem_cons_self))
  · have stops : Stops ('\n' :: behind) := by
      rintro _ ⟨⟩
      rfl
    exact (inCode_guarded (.append (.refl front) (.stop stops stops)) (.refl c) quote read valid
      code).2

end Lexeme

end PageScript
