import Mathlib.Data.List.Forall2
import PageScript.Token.Code

/-!
# Proofs/Token/Folding — texts that differ in case

Two characters are the same letter if they differ at most in case (`SameLetter`); two texts are alike
if they hold the same letters (`Alike`).  A character that is no letter is the same as itself alone, so
whatever a reader asks of a character but its case has one answer for both (`SameLetter.cases`).
-/

namespace PageScript

/-- The characters differ at most in the case of an ASCII letter. -/
def SameLetter (c c' : Char) : Prop := c'.toLower = c.toLower

/-- The texts differ at most in the case of ASCII letters. -/
abbrev Alike (chars chars' : List Char) : Prop := List.Forall₂ SameLetter chars chars'

theorem toLower_cases (c : Char) :
    (65 ≤ c.toNat ∧ c.toNat ≤ 90 ∧ c.toLower.toNat = c.toNat + 32) ∨
      (¬ (65 ≤ c.toNat ∧ c.toNat ≤ 90) ∧ c.toLower = c) := by
  unfold Char.toLower
  split
  case isTrue hupper =>
    have hge : 65 ≤ c.toNat := hupper.1
    have hle : c.toNat ≤ 90 := hupper.2
    refine .inl ⟨hge, hle, ?_⟩
    change (c.val + 32).toNat = c.val.toNat + 32
    have hle : c.val.toNat ≤ 90 := hle
    rw [UInt32.toNat_add, show (32 : UInt32).toNat = 32 from rfl]
    omega
  case isFalse hupper => exact .inr ⟨fun h => hupper ⟨h.1, h.2⟩, rfl⟩

theorem isAlpha_iff (c : Char) : c.isAlpha = true ↔
    (65 ≤ c.toNat ∧ c.toNat ≤ 90) ∨ (97 ≤ c.toNat ∧ c.toNat ≤ 122) := by
  have upper : c.isUpper = true ↔ 65 ≤ c.toNat ∧ c.toNat ≤ 90 := decide_eq_true_iff
  have lower : c.isLower = true ↔ 97 ≤ c.toNat ∧ c.toNat ≤ 122 :=
    Bool.and_eq_true_iff.trans (and_congr decide_eq_true_iff decide_eq_true_iff)
  exact Bool.or_eq_true_iff.trans (or_congr upper lower)

theorem isDigit_iff (c : Char) : c.isDigit = true ↔ 48 ≤ c.toNat ∧ c.toNat ≤ 57 := by
  simp only [Char.isDigit, Bool.and_eq_true, decide_eq_true_eq, ge_iff_le, UInt32.le_iff_toNat_le]
  rfl

theorem char_le_iff (c d : Char) : c ≤ d ↔ c.toNat ≤ d.toNat := by
  rw [Char.le_def, UInt32.le_iff_toNat_le]
  rfl

namespace SameLetter

variable {c c' : Char}

theorem refl (c : Char) : SameLetter c c := rfl

theorem symm (h : SameLetter c c') : SameLetter c' c := Eq.symm h

/-- Of two characters that are the same letter one is the upper case of the other, or they are one. -/
theorem cases (h : SameLetter c c') : c' = c ∨ c'.toNat ≠ c.toNat ∧
    ∃ n, 65 ≤ n ∧ n ≤ 90 ∧ (c.toNat = n ∧ c'.toNat = n + 32 ∨ c'.toNat = n ∧ c.toNat = n + 32) := by
  unfold SameLetter at h
  obtain ⟨hge, hle, hlow⟩ | ⟨hout, hsame⟩ := toLower_cases c <;>
    obtain ⟨hge', hle', hlow'⟩ | ⟨hout', hsame'⟩ := toLower_cases c'
  · left
    rw [h] at hlow'
    exact Char.toNat_inj.mp (by omega)
  · rw [← hsame', h]
    exact .inr ⟨by omega, c.toNat, hge, hle, .inl ⟨rfl, hlow⟩⟩
  · rw [← hsame, ← h]
    exact .inr ⟨by omega, c'.toNat, hge', hle', .inr ⟨rfl, hlow'⟩⟩
  · left
    rw [← hsame, ← hsame', h]

theorem isAlpha_eq (h : SameLetter c c') : c'.isAlpha = c.isAlpha := by
  obtain rfl | ⟨-, n, hge, hle, letters⟩ := h.cases
  · rfl
  · rw [Bool.eq_iff_iff, isAlpha_iff, isAlpha_iff]
    omega

theorem isDigit_eq (h : SameLetter c c') : c'.isDigit = c.isDigit := by
  obtain rfl | ⟨-, n, hge, hle, letters⟩ := h.cases
  · rfl
  · rw [Bool.eq_iff_iff, isDigit_iff, isDigit_iff]
    omega

theorem isHexDigit_eq (h : SameLetter c c') : Number.isHexDigit c' = Number.isHexDigit c := by
  obtain rfl | ⟨-, n, hge, hle, letters⟩ := h.cases
  · rfl
  · simp only [Number.isHexDigit, h.isDigit_eq, Bool.or_assoc]
    congr 1
    rw [Bool.eq_iff_iff]
    simp only [Bool.or_eq_true, Bool.and_eq_true, decide_eq_true_eq, char_le_iff, Char.reduceToNat]
    omega

/-- A character that is no letter is the same as itself alone. -/
theorem eq_of_not_isAlpha (h : SameLetter c c') (hc : c.isAlpha = false) : c' = c := by
  obtain same | ⟨-, n, hge, hle, letters⟩ := h.cases
  · exact same
  · rw [← Bool.not_eq_true, isAlpha_iff] at hc
    omega

theorem beq_eq (h : SameLetter c c') {d : Char} (hd : d.isAlpha = false) : (c' == d) = (c == d) := by
  obtain rfl | ⟨-, n, hge, hle, letters⟩ := h.cases
  · rfl
  · rw [← Bool.not_eq_true, isAlpha_iff] at hd
    rw [Bool.eq_iff_iff, beq_iff_eq, beq_iff_eq, ← Char.toNat_inj, ← Char.toNat_inj]
    omega

theorem isWordChar_eq (h : SameLetter c c') : Lexeme.isWordChar c' = Lexeme.isWordChar c := by
  rw [Lexeme.isWordChar, Lexeme.isWordChar, Char.isAlphanum, Char.isAlphanum, h.isAlpha_eq,
    h.isDigit_eq, h.beq_eq (by decide)]

/-- A letter is asked for in both cases. -/
theorem letter_eq (h : SameLetter c c') (low up : Char) (hup : 65 ≤ up.toNat ∧ up.toNat ≤ 90)
    (hlow : low.toNat = up.toNat + 32) : (c' == low || c' == up) = (c == low || c == up) := by
  obtain rfl | ⟨-, n, hge, hle, letters⟩ := h.cases
  · rfl
  · rw [Bool.eq_iff_iff]
    simp only [Bool.or_eq_true, beq_iff_eq, ← Char.toNat_inj]
    omega

theorem hexDigitValue_eq (h : SameLetter c c') :
    Number.hexDigitValue c' = Number.hexDigitValue c := by
  obtain rfl | ⟨-, n, hge, hle, letters⟩ := h.cases
  · rfl
  · simp only [Number.hexDigitValue, h.isDigit_eq, char_le_iff, Char.reduceToNat]
    split
    · rename_i digit
      rw [isDigit_iff] at digit
      omega
    · split <;> split <;> omega

end SameLetter

namespace Alike

variable {chars chars' : List Char}

theorem refl (chars : List Char) : Alike chars chars := List.forall₂_same.mpr fun c _ => .refl c

theorem of_map_eq (h : chars'.map Char.toLower = chars.map Char.toLower) : Alike chars chars' := by
  induction chars generalizing chars' with
  | nil =>
    obtain rfl := List.map_eq_nil_iff.mp h
    exact .nil
  | cons c chars ih =>
    obtain ⟨c', rest', rfl, head, tail⟩ := List.map_eq_cons_iff.mp h
    exact .cons head (ih tail)

theorem map_eq (h : Alike chars chars') : chars'.map Char.toLower = chars.map Char.toLower := by
  induction h with
  | nil => rfl
  | cons head _ ih => exact congrArg₂ List.cons head ih

theorem foldCase_eq (h : Alike chars chars') :
    foldCase (String.ofList chars') = foldCase (String.ofList chars) := by
  rw [foldCase, foldCase, String.toList_ofList, String.toList_ofList, h.map_eq]

/-- A text without letters is like itself alone. -/
theorem eq_of_not_isAlpha (h : Alike chars chars') (hchars : ∀ c ∈ chars, c.isAlpha = false) :
    chars' = chars := by
  induction h with
  | nil => rfl
  | cons head _ ih =>
    obtain ⟨hc, hrest⟩ := List.forall_mem_cons.mp hchars
    rw [head.eq_of_not_isAlpha hc, ih hrest]

theorem drop (h : Alike chars chars') (n : Nat) : Alike (chars.drop n) (chars'.drop n) :=
  List.forall₂_drop n h

theorem append (h : Alike chars chars') {more more' : List Char} (hmore : Alike more more') :
    Alike (chars ++ more) (chars' ++ more') := by
  induction h with
  | nil => exact hmore
  | cons head _ ih => exact .cons head ih

theorem append_inv {more all : List Char} (h : Alike (chars ++ more) all) :
    ∃ chars' more', all = chars' ++ more' ∧ Alike chars chars' ∧ Alike more more' := by
  induction chars generalizing all with
  | nil => exact ⟨[], all, rfl, .nil, h⟩
  | cons c chars ih =>
    obtain ⟨c', rest, head, tail, rfl⟩ := List.forall₂_cons_left_iff.mp h
    obtain ⟨chars', more', rfl, alike, alike'⟩ := ih tail
    exact ⟨c' :: chars', more', rfl, .cons head alike, alike'⟩

theorem head?_beq (h : Alike chars chars') {d : Char} (hd : d.isAlpha = false) :
    (chars'.head? == some d) = (chars.head? == some d) := by
  cases h with
  | nil => rfl
  | cons head => exact head.beq_eq hd

theorem head?_eq_false (h : Alike chars chars') {p : Char → Bool}
    (hp : ∀ {c c'}, SameLetter c c' → p c' = p c) (hchars : ∀ c ∈ chars.head?, p c = false) :
    ∀ c ∈ chars'.head?, p c = false := by
  cases h with
  | nil => exact nofun
  | @cons c c' _ _ head =>
    rintro _ ⟨⟩
    exact (hp head).trans (hchars c rfl)

theorem filter_ne (h : Alike chars chars') {d : Char} (hd : d.isAlpha = false) :
    Alike (chars.filter (· != d)) (chars'.filter (· != d)) := by
  induction h with
  | nil => exact .nil
  | @cons c c' _ _ head _ ih =>
    rw [List.filter_cons, List.filter_cons, bne, bne, head.beq_eq hd]
    cases c == d with
    | true => exact ih
    | false => exact .cons head ih

/-! ## Numbers -/

/-- The digits at the front are the same, and what is behind them is alike. -/
theorem digits (h : Alike chars chars') :
    chars'.takeWhile Char.isDigit = chars.takeWhile Char.isDigit ∧
      Alike (chars.dropWhile Char.isDigit) (chars'.dropWhile Char.isDigit) := by
  induction h with
  | nil => exact ⟨rfl, .nil⟩
  | @cons c c' chars chars' head tail ih =>
    cases digit : c.isDigit with
    | true =>
      obtain rfl := head.eq_of_not_isAlpha (by
        rw [← Bool.not_eq_true, isAlpha_iff]
        rw [isDigit_iff] at digit
        omega)
      simp only [List.takeWhile_cons, List.dropWhile_cons, digit, if_true]
      exact ⟨congrArg _ ih.1, ih.2⟩
    | false =>
      have digit' := head.isDigit_eq.trans digit
      simp only [List.takeWhile_cons, List.dropWhile_cons, digit, digit', Bool.false_eq_true,
        if_false]
      exact ⟨trivial, .cons head tail⟩

theorem all_isDigit (h : Alike chars chars') : chars'.all Char.isDigit = chars.all Char.isDigit := by
  induction h with
  | nil => rfl
  | cons head _ ih => rw [List.all_cons, List.all_cons, head.isDigit_eq, ih]

theorem foldl_digits (h : Alike chars chars') (value : Nat) :
    chars'.foldl (fun value c => value * 16 + Number.hexDigitValue c) value =
      chars.foldl (fun value c => value * 16 + Number.hexDigitValue c) value := by
  induction h generalizing value with
  | nil => rfl
  | cons head _ ih => rw [List.foldl_cons, List.foldl_cons, head.hexDigitValue_eq, ih]

theorem all_isHexDigit (h : Alike chars chars') :
    chars'.all Number.isHexDigit = chars.all Number.isHexDigit := by
  induction h with
  | nil => rfl
  | cons head _ ih => rw [List.all_cons, List.all_cons, head.isHexDigit_eq, ih]

theorem ofHexDigits?_eq (h : Alike chars chars') :
    Number.ofHexDigits? chars' = Number.ofHexDigits? chars := by
  have empty : chars'.isEmpty = chars.isEmpty := by cases h <;> rfl
  rw [Number.ofHexDigits?, Number.ofHexDigits?, empty, h.all_isHexDigit, h.foldl_digits]

/-- Digits hold no letter. -/
theorem eq_of_all_isDigit (h : Alike chars chars') (hdigits : chars.all Char.isDigit = true) :
    chars' = chars := by
  refine h.eq_of_not_isAlpha fun c hc => ?_
  have digit := List.all_eq_true.mp hdigits c hc
  rw [isDigit_iff] at digit
  rw [← Bool.not_eq_true, isAlpha_iff]
  omega

theorem exponentOfChars?_unsigned {c : Char} (minus : c ≠ '-') (plus : c ≠ '+') :
    Number.Decimal.exponentOfChars? (c :: chars) =
      if (c :: chars).isEmpty || !(c :: chars).all Char.isDigit then none
      else some (if false then -(Number.digitsValue (c :: chars) : Int)
        else Number.digitsValue (c :: chars)) := by
  rw [Number.Decimal.exponentOfChars?]
  · rintro rest ⟨⟩
    exact minus rfl
  · rintro rest ⟨⟩
    exact plus rfl

theorem exponentOfChars?_eq (h : Alike chars chars') :
    Number.Decimal.exponentOfChars? chars' = Number.Decimal.exponentOfChars? chars := by
  have same {rest rest' : List Char} (h : Alike rest rest') :
      (rest'.isEmpty || !rest'.all Char.isDigit) = (rest.isEmpty || !rest.all Char.isDigit) ∧
        ((rest.isEmpty || !rest.all Char.isDigit) = false → rest' = rest) := by
    refine ⟨by rw [h.all_isDigit]; cases h <;> rfl, fun digits => h.eq_of_all_isDigit ?_⟩
    rw [Bool.or_eq_false_iff, Bool.not_eq_false'] at digits
    exact digits.2
  have value (negative : Bool) {rest rest' : List Char} (h : Alike rest rest') :
      (if rest'.isEmpty || !rest'.all Char.isDigit then none
        else some (if negative then -(Number.digitsValue rest' : Int) else Number.digitsValue rest'))
        = if rest.isEmpty || !rest.all Char.isDigit then none
          else some (if negative then -(Number.digitsValue rest : Int)
            else Number.digitsValue rest) := by
    rw [(same h).1]
    cases digits : rest.isEmpty || !rest.all Char.isDigit with
    | true => rfl
    | false => rw [(same h).2 digits]
  cases h with
  | nil => rfl
  | @cons c c' chars chars' head tail =>
    by_cases minus : c = '-'
    · subst minus
      obtain rfl := head.eq_of_not_isAlpha (by decide)
      exact value true tail
    by_cases plus : c = '+'
    · subst plus
      obtain rfl := head.eq_of_not_isAlpha (by decide)
      exact value false tail
    have minus' := beq_eq_false_iff_ne.mpr minus
    have plus' := beq_eq_false_iff_ne.mpr plus
    rw [← head.beq_eq (by decide), beq_eq_false_iff_ne] at minus' plus'
    rw [exponentOfChars?_unsigned minus plus, exponentOfChars?_unsigned minus' plus']
    exact value false (.cons head tail)

/-- What is behind the digits of a numeral is alike if these stand for one value. -/
theorem exponent_eq (value : Nat) (fraction : Int) : Alike chars chars' →
    (match chars' with
      | [] => some (Number.Decimal.mk value (-fraction))
      | c :: rest =>
        if c == 'e' || c == 'E' then
          (Number.Decimal.exponentOfChars? rest).map fun e => ⟨value, e - fraction⟩
        else none) =
      match chars with
      | [] => some (Number.Decimal.mk value (-fraction))
      | c :: rest =>
        if c == 'e' || c == 'E' then
          (Number.Decimal.exponentOfChars? rest).map fun e => ⟨value, e - fraction⟩
        else none
  | .nil => rfl
  | .cons head tail => by
    simp only [head.letter_eq 'e' 'E' (by decide) rfl, exponentOfChars?_eq tail]

theorem ofNumeral?_unpointed (h : ∀ rest, chars.dropWhile Char.isDigit ≠ '.' :: rest) :
    Number.Decimal.ofNumeral? chars =
      if (chars.takeWhile Char.isDigit).isEmpty && ([] : List Char).isEmpty then none else
        match chars.dropWhile Char.isDigit with
        | [] => some (Number.Decimal.mk
            (Number.digitsValue (chars.takeWhile Char.isDigit ++ [])) (-([] : List Char).length))
        | c :: rest =>
          if c == 'e' || c == 'E' then
            (Number.Decimal.exponentOfChars? rest).map fun e =>
              ⟨Number.digitsValue (chars.takeWhile Char.isDigit ++ []),
                e - ([] : List Char).length⟩
          else none := by
  rw [Number.Decimal.ofNumeral?]
  dsimp only
  split
  · rename_i heq
    exact absurd heq (h _)
  · rfl

theorem ofNumeral?_eq (h : Alike chars chars') :
    Number.Decimal.ofNumeral? chars' = Number.Decimal.ofNumeral? chars := by
  obtain ⟨whole, behind⟩ := h.digits
  by_cases point : ∃ rest, chars.dropWhile Char.isDigit = '.' :: rest
  · obtain ⟨rest, point⟩ := point
    rw [point] at behind
    obtain ⟨c', rest', head, tail, point'⟩ := List.forall₂_cons_left_iff.mp behind
    obtain rfl := head.eq_of_not_isAlpha (by decide)
    obtain ⟨fraction, further⟩ := digits tail
    simp only [Number.Decimal.ofNumeral?, whole, point, point', fraction]
    split
    · rfl
    · exact exponent_eq _ _ further
  · have point' (rest' : List Char) : chars'.dropWhile Char.isDigit ≠ '.' :: rest' := by
      intro point'
      rw [point'] at behind
      obtain ⟨c, rest, head, -, same⟩ := List.forall₂_cons_right_iff.mp behind
      rw [head.symm.eq_of_not_isAlpha (by decide)] at same
      exact point ⟨rest, same⟩
    rw [ofNumeral?_unpointed fun rest h => point ⟨rest, h⟩, ofNumeral?_unpointed point', whole]
    split
    · rfl
    · exact exponent_eq _ _ behind

end Alike

end PageScript
