import Mathlib.Data.List.TakeWhile
import PageScript.Proofs.Token.Relaying
import PageScript.Value.Basic

/-!
# Proofs/Number/Literals — the texts that stand for a number

A text is read as a number by taking it apart; script code is read by the longest token.  The two
accept the same numerals: a decimal is what the one reads exactly if it is what the other reads
(`isDecimal_iff`), and so it is with a hexadecimal number (`isHexadecimal_iff`).  A text, its blanks
stripped, thus stands for a number exactly if it is a literal (`IsLiteral`), or one with a plus sign
in front of its hexadecimal digits, which script code has no token for (`toNumber_string`).
-/

namespace PageScript

namespace Lexeme

variable {c : Char} {chars rest : List Char} {kind : TokenKind}

/-- Script code holds the characters as one token, which takes all of them: as a source they are that
token (`isWhole_iff_tokensOf`). -/
def IsWhole (chars : List Char) (kind : TokenKind) : Prop :=
  ∃ c rest, chars = c :: rest ∧ inCode c rest = (.token kind, rest.length)

theorem isWhole_cons : IsWhole (c :: rest) kind ↔ inCode c rest = (.token kind, rest.length) := by
  refine ⟨?_, fun read => ⟨c, rest, rfl, read⟩⟩
  rintro ⟨_, _, ⟨⟩, read⟩
  exact read

/-- A token starts at the place or behind it. -/
theorem le_start_of_mem_tokensFrom (p : Place) (chars : List Char) :
    ∀ t ∈ tokensFrom p chars, min p.offset Span.limit ≤ t.span.start := by
  have cut {a b : Nat} (h : a ≤ b) : min a Span.limit ≤ min b Span.limit := by omega
  induction p, chars using Place.induction_on with
  | stop p =>
    rw [tokensFrom_nil]
    exact List.forall_mem_singleton.mpr (Nat.le_refl _)
  | token p c rest kind more hlexeme ih =>
    have later : p.offset ≤ p.offset + c.utf8Size + utf8Length (rest.take more) := by omega
    rw [tokensFrom_cons, hlexeme]
    exact List.forall_mem_cons.mpr ⟨Nat.le_refl _, fun t ht => Nat.le_trans (cut later) (ih t ht)⟩
  | layout p c rest lexeme more hlexeme hlayout ih =>
    have later : p.offset ≤ p.offset + c.utf8Size + utf8Length (rest.take more) := by omega
    rw [tokensFrom_cons, hlexeme]
    cases lexeme with
    | token kind => exact absurd rfl (hlayout kind)
    | _ => exact fun t ht => Nat.le_trans (cut later) (ih t ht)

/-- **Reading a source as one token**: it is cut into that token, which covers all of its bytes, and
the end. -/
theorem isWhole_iff_tokensOf (valid : kind ≠ .invalid) (code : kind ≠ .closeCode)
    (hlimit : utf8Length chars ≤ Span.limit) : IsWhole chars kind ↔
      ∃ t e, tokensOf .code (String.ofList chars) = [t, e] ∧ t.kind = kind ∧
        t.span = ⟨0, utf8Length chars⟩ := by
  rw [tokensOf, String.toList_ofList]
  cases chars with
  | nil =>
    refine ⟨fun ⟨_, _, h, _⟩ => absurd h.symm (List.cons_ne_nil _ _), fun ⟨t, e, tokens, _⟩ => ?_⟩
    rw [tokensFrom_nil] at tokens
    cases tokens
  | cons c rest =>
    have start : (Place.start .code).offset = 0 := rfl
    have lexeme : (Place.start .code).lexeme c rest = inCode c rest := rfl
    rw [isWhole_cons, tokensFrom_cons, lexeme]
    generalize hread : inCode c rest = reading
    obtain ⟨lexeme, more⟩ := reading
    dsimp only
    constructor
    · rintro ⟨⟩
      have nothing (p : Place) : tokensFrom p [] = [p.endToken] := tokensFrom_nil p
      rw [List.drop_length, List.take_length, nothing]
      refine ⟨_, _, rfl, rfl, ?_⟩
      rw [Place.token, start, Nat.zero_add]
      exact congrArg (Span.mk _) (Nat.min_eq_left hlimit)
    · rintro ⟨t, e, tokens, hkind, span⟩
      have behind {p : Place} {chars' : List Char} (hp : 0 < p.offset)
          (tokens : tokensFrom p chars' = [t, e]) : False := by
        have le := le_start_of_mem_tokensFrom p chars' t (tokens ▸ List.mem_cons_self)
        rw [span] at le
        have limit : 0 < Span.limit := by decide
        exact absurd (Nat.le_zero.mp le) (Nat.ne_of_gt (Nat.lt_min.mpr ⟨hp, limit⟩))
      have pos : 0 < (Place.start .code).offset + c.utf8Size + utf8Length (rest.take more) := by
        have := c.utf8Size_pos
        omega
      cases lexeme with
      | blank => exact (behind pos tokens).elim
      | remark => exact (behind pos tokens).elim
      | token kind' =>
        obtain ⟨rfl, -⟩ := List.cons.inj tokens
        obtain rfl : kind' = kind := hkind
        have le := le_of_inCode hread ⟨valid, code⟩
        have stop := congrArg Span.stop span
        have parts := utf8Length_append (rest.take more) (rest.drop more)
        rw [List.take_append_drop] at parts
        rw [Place.token, start, Nat.zero_add] at stop
        rw [utf8Length] at stop hlimit
        have nothing : utf8Length (rest.drop more) = 0 := by
          have : min (c.utf8Size + utf8Length (rest.take more)) Span.limit =
              c.utf8Size + utf8Length rest := stop
          omega
        have all : rest.length ≤ more := by
          rw [← List.drop_eq_nil_iff]
          by_contra hne
          exact absurd nothing (Nat.ne_of_gt (utf8Length_pos hne))
        rw [Nat.le_antisymm le all]

end Lexeme

namespace Number

open Lexeme

/-! ## Literals -/

/-- A decimal number as script code has it. -/
def IsDecimal (chars : List Char) (x : Float) : Prop :=
  IsWhole chars (.number x) ∧ chars.head? ≠ some '&'

/-- A hexadecimal number as script code has it. -/
def IsHexadecimal (chars : List Char) (x : Float) : Prop :=
  IsWhole chars (.number x) ∧ chars.head? = some '&'

/-- A number of script code, a decimal one with a sign or without. -/
inductive IsLiteral : List Char → Float → Prop
  | decimal {chars x} (h : IsDecimal chars x) : IsLiteral chars x
  | positive {chars x} (h : IsDecimal chars x) : IsLiteral ('+' :: chars) x
  | negative {chars x} (h : IsDecimal chars x) : IsLiteral ('-' :: chars) (-x)
  | hexadecimal {chars x} (h : IsHexadecimal chars x) : IsLiteral chars x

/-- A hexadecimal number but for a plus sign in front of its digits. -/
inductive IsPlusHexadecimal : List Char → Float → Prop
  | mk {letter digits x} (hex : IsHexadecimal ('&' :: letter :: digits) x) :
      IsPlusHexadecimal ('&' :: letter :: '+' :: digits) x

variable {c letter : Char} {chars rest digits : List Char} {x : Float}

/-! ## Decimals -/

/-- An exponent that can be read takes everything that it is read from. -/
theorem exponentLength_of_exponentOfChars? (letter : (c == 'e' || c == 'E') = true) {e : Int}
    (h : Decimal.exponentOfChars? chars = some e) :
    exponentLength (c :: chars) = (c :: chars).length := by
  have plain (rest : List Char) {value : Int}
      (h : (if rest.isEmpty || !rest.all Char.isDigit then none else some value) = some e) :
      rest.takeWhile Char.isDigit = rest ∧ rest.length ≠ 0 := by
    split at h
    · cases h
    · rename_i hdigits
      rw [Bool.or_eq_true, not_or, List.isEmpty_iff, Bool.not_eq_true, Bool.not_eq_false'] at hdigits
      exact ⟨List.takeWhile_eq_self_iff.mpr (List.all_eq_true.mp hdigits.2), fun hnil => hdigits.1 (List.length_eq_zero_iff.mp hnil)⟩
  rw [exponentLength_cons, if_pos letter]
  cases chars with
  | nil => cases h
  | cons s rest =>
    by_cases minus : s = '-'
    · subst minus
      obtain ⟨run, hne⟩ := plain rest h
      simp only [starts, List.head?_cons, Option.any_some, beq_self_eq_true, Bool.or_true, if_true, List.drop_succ_cons, List.drop_zero, run, hne, if_false,
        List.length_cons]
    by_cases plus : s = '+'
    · subst plus
      obtain ⟨run, hne⟩ := plain rest h
      simp only [starts, List.head?_cons, Option.any_some, beq_self_eq_true, Bool.true_or, if_true, List.drop_succ_cons, List.drop_zero, run, hne, if_false,
        List.length_cons]
    rw [Alike.exponentOfChars?_unsigned minus plus] at h
    obtain ⟨run, hne⟩ := plain (s :: rest) h
    have unsigned : (starts (· == '+') (s :: rest) || starts (· == '-') (s :: rest)) = false := by
      simp [starts, minus, plus]
    simp only [unsigned, Bool.false_eq_true, if_false, run, hne]
    rfl

/-- What is behind the digits of a numeral that can be read is an exponent or nothing. -/
theorem exponentLength_of_some {value : Nat} {fraction : Int} {d : Decimal}
    (h : (match chars with
      | [] => some (Decimal.mk value (-fraction))
      | c :: rest =>
        if c == 'e' || c == 'E' then
          (Decimal.exponentOfChars? rest).map fun e => ⟨value, e - fraction⟩
        else none) = some d) : exponentLength chars = chars.length := by
  cases chars with
  | nil => rfl
  | cons c rest =>
    dsimp only at h
    split at h
    · rename_i letter
      obtain ⟨e, he, -⟩ := Option.map_eq_some_iff.mp h
      exact exponentLength_of_exponentOfChars? letter he
    · cases h

theorem length_dropWhile (p : Char → Bool) (chars : List Char) :
    (chars.takeWhile p).length + (chars.dropWhile p).length = chars.length := by
  rw [← List.length_append, List.takeWhile_append_dropWhile]

theorem drop_takeWhile (p : Char → Bool) (chars : List Char) :
    chars.drop (chars.takeWhile p).length = chars.dropWhile p := by
  have left : (chars.takeWhile p ++ chars.dropWhile p).drop (chars.takeWhile p).length =
      chars.dropWhile p := List.drop_left
  rwa [List.takeWhile_append_dropWhile] at left

/-- A numeral that can be read is as long as the number that starts with its first digit. -/
theorem numeralLength_of_ofNumeral? {d : Decimal} (h : Decimal.ofNumeral? chars = some d) :
    numeralLength chars = chars.length := by
  have whole := length_dropWhile Char.isDigit chars
  rw [numeralLength_of_starts]
  dsimp only
  rw [drop_takeWhile]
  by_cases point : ∃ rest, chars.dropWhile Char.isDigit = '.' :: rest
  · obtain ⟨rest, point⟩ := point
    have fraction := length_dropWhile Char.isDigit rest
    have behind : chars.drop ((chars.takeWhile Char.isDigit).length +
        ((rest.takeWhile Char.isDigit).length + 1)) = rest.dropWhile Char.isDigit := by
      rw [← List.drop_drop, drop_takeWhile, point, List.drop_succ_cons, drop_takeWhile]
    have exponent : exponentLength (rest.dropWhile Char.isDigit) =
        (rest.dropWhile Char.isDigit).length := by
      simp only [Decimal.ofNumeral?, point] at h
      split at h
      · cases h
      · exact exponentLength_of_some h
    have pointed : starts (· == '.') ('.' :: rest) = true := rfl
    rw [point, List.length_cons] at whole
    rw [point, pointed, if_pos rfl, List.drop_succ_cons, List.drop_zero, behind, exponent]
    omega
  · have exponent : exponentLength (chars.dropWhile Char.isDigit) =
        (chars.dropWhile Char.isDigit).length := by
      rw [Alike.ofNumeral?_unpointed fun rest h => point ⟨rest, h⟩] at h
      split at h
      · cases h
      · exact exponentLength_of_some h
    have unpointed : starts (· == '.') (chars.dropWhile Char.isDigit) = false := by
      rw [starts_beq, beq_eq_false_iff_ne]
      exact fun hhead => point (List.head?_eq_some_iff.mp hhead)
    rw [unpointed, if_neg Bool.false_ne_true, Nat.add_zero, drop_takeWhile, exponent, whole]

/-- A numeral that starts with a point has a digit behind it. -/
theorem fractionLength_of_ofNumeral? {d : Decimal}
    (h : Decimal.ofNumeral? ('.' :: rest) = some d) :
    fractionLength ('.' :: rest) = ('.' :: rest).length := by
  have fraction := length_dropWhile Char.isDigit rest
  have digit : '.'.isDigit = false := rfl
  simp only [Decimal.ofNumeral?, List.takeWhile_cons, List.dropWhile_cons, digit,
    Bool.false_eq_true, if_false, List.isEmpty_nil, Bool.true_and] at h
  split at h
  · cases h
  · rename_i hne
    have exponent := exponentLength_of_some h
    have nonzero : (rest.takeWhile Char.isDigit).length ≠ 0 := fun hnil =>
      hne (List.isEmpty_iff.mpr (List.length_eq_zero_iff.mp hnil))
    simp only [fractionLength, List.drop_succ_cons, List.drop_zero, nonzero, if_false,
      drop_takeWhile, exponent, List.length_cons]
    omega

theorem ofNumeral?_eq_none (digit : c.isDigit = false) (point : c ≠ '.') :
    Decimal.ofNumeral? (c :: rest) = none := by
  rw [Alike.ofNumeral?_unpointed]
  · rw [List.takeWhile_cons_of_neg (digit ▸ Bool.false_ne_true)]
    rfl
  · rw [List.dropWhile_cons_of_neg (digit ▸ Bool.false_ne_true)]
    rintro _ ⟨⟩
    exact point rfl

/-- A number starts with a digit, a point or the sign of a hexadecimal one. -/
theorem head_of_inCode {more : Nat} (h : inCode c rest = (.token (.number x), more)) :
    c.isDigit = true ∨ c = '.' ∨ c = '&' := by
  revert h
  fun_cases inCode c rest with
  | case2 c rest _ letter lexeme length word =>
    rintro ⟨⟩
    rw [ofWord] at word
    dsimp only at word
    split at word
    · cases word
    · have hkind := congrArg Prod.fst word
      split at hkind <;> cases hkind
  | case3 _ _ _ _ digit => exact fun _ => .inl digit
  | case6 rest length text body => rw [body]; rintro ⟨⟩
  | case7 rest length body => rw [body]; rintro ⟨⟩
  | case8 rest gap behind hline => dsimp only; rw [hline]; rintro ⟨⟩
  | case9 rest gap behind hline => dsimp only; rw [hline]; rintro ⟨⟩
  | case10 rest gap hline hreturn =>
    dsimp only
    split
    case h_1 behind h => exact absurd h (hline behind)
    case h_2 behind h => exact absurd h (hreturn behind)
    case h_3 => rintro ⟨⟩
  | case15 | case16 => exact fun _ => .inr (.inr rfl)
  | case17 | case18 => exact fun _ => .inr (.inl rfl)
  | case19 c rest _ _ _ s hsymbol => rw [hsymbol]; rintro ⟨⟩
  | case20 c rest _ _ _ hsymbol => rw [hsymbol]; rintro ⟨⟩
  | _ => rintro ⟨⟩

theorem numberToken_eq {value : Option Float} :
    numberToken value = .token (.number x) ↔ value = some x := by
  cases value with
  | none => exact iff_of_false nofun nofun
  | some value => exact ⟨fun h => by cases h; rfl, fun h => by cases h; rfl⟩

/-- A number that is a run of characters is whole if the run is all there is. -/
theorem ofNumeral_whole {length : Nat} (pos : 0 < length) :
    (ofNumeral ((c :: rest).take length), length - 1) = (.token (.number x), rest.length) ↔
      length = (c :: rest).length ∧
        (Decimal.ofNumeral? (c :: rest)).map Decimal.toFloat = some x := by
  rw [Prod.mk.injEq, and_comm, List.length_cons]
  refine and_congr_left_iff.mpr ?_ |>.trans (and_congr_right fun hlength => ?_)
  · exact fun _ => by omega
  · rw [hlength, ← List.length_cons, List.take_length, ofNumeral, numberToken_eq]

/-- **Decimals**: script code holds the same numerals as a text. -/
theorem isDecimal_iff :
    IsDecimal chars x ↔ (Decimal.ofNumeral? chars).map Decimal.toFloat = some x := by
  have run {c : Char} {rest : List Char} {length : Nat} (pos : 0 < length)
      (hlength : ∀ d, Decimal.ofNumeral? (c :: rest) = some d → length = (c :: rest).length) :
      (ofNumeral ((c :: rest).take length), length - 1) = (.token (.number x), rest.length) ↔
        (Decimal.ofNumeral? (c :: rest)).map Decimal.toFloat = some x := by
    rw [ofNumeral_whole pos]
    refine and_iff_right_of_imp fun h => ?_
    obtain ⟨d, hd, -⟩ := Option.map_eq_some_iff.mp h
    exact hlength d hd
  cases chars with
  | nil => exact iff_of_false (fun ⟨⟨_, _, h, _⟩, _⟩ => List.cons_ne_nil _ _ h.symm) nofun
  | cons c rest =>
    rw [IsDecimal, isWhole_cons]
    by_cases digit : c.isDigit = true
    · have noAmp : (c :: rest).head? ≠ some '&' := by
        rintro ⟨⟩
        cases digit
      have pos : 0 < numeralLength (c :: rest) := by
        rw [numeralLength_of_starts, List.takeWhile_cons_of_pos digit, List.length_cons]
        dsimp only
        omega
      rw [and_iff_left noAmp, inCode_of_isDigit digit]
      exact run pos fun d hd => numeralLength_of_ofNumeral? hd
    by_cases point : c = '.'
    · subst point
      have noAmp : ('.' :: rest).head? ≠ some '&' := nofun
      rw [and_iff_left noAmp, inCode_dot]
      split
      · rename_i length
        refine iff_of_false nofun fun h => ?_
        obtain ⟨d, hd, -⟩ := Option.map_eq_some_iff.mp h
        rw [fractionLength_of_ofNumeral? hd] at length
        cases length
      · rename_i length
        exact run (Nat.pos_of_ne_zero length) fun d hd => fractionLength_of_ofNumeral? hd
    rw [ofNumeral?_eq_none (Bool.eq_false_iff.mpr digit) point]
    refine iff_of_false (fun ⟨read, noAmp⟩ => ?_) nofun
    obtain digit' | point' | rfl := head_of_inCode read
    · exact digit digit'
    · exact point point'
    · exact noAmp rfl

/-! ## Hexadecimal numbers -/

/-- The digits of a hexadecimal number, without the sign that may close it. -/
def stripAmp (chars : List Char) : List Char :=
  if chars.getLast? == some '&' then chars.dropLast else chars

theorem ofHexDigits?_inv (h : ofHexDigits? digits = some x) :
    digits ≠ [] ∧ ∀ c ∈ digits, isHexDigit c = true := by
  rw [ofHexDigits?] at h
  split at h
  · cases h
  · rename_i hdigits
    rw [Bool.or_eq_true, not_or, List.isEmpty_iff, Bool.not_eq_true, Bool.not_eq_false'] at hdigits
    exact ⟨hdigits.1, List.all_eq_true.mp hdigits.2⟩

/-- A text is digits with at most one closing sign if stripping that leaves digits. -/
theorem ofHexDigits?_stripAmp : ofHexDigits? (stripAmp chars) = some x ↔
    ∃ digits, (chars = digits ∨ chars = digits ++ ['&']) ∧ ofHexDigits? digits = some x := by
  constructor
  · intro h
    rw [stripAmp] at h
    split at h
    · rename_i closed
      rw [beq_iff_eq, List.getLast?_eq_some_iff] at closed
      obtain ⟨digits, rfl⟩ := closed
      rw [List.dropLast_concat] at h
      exact ⟨digits, .inr rfl, h⟩
    · exact ⟨chars, .inl rfl, h⟩
  · rintro ⟨digits, rfl | rfl, h⟩
    · have unclosed : (chars.getLast? == some '&') = false := by
        rw [beq_eq_false_iff_ne]
        intro closed
        obtain ⟨digits, rfl⟩ := List.getLast?_eq_some_iff.mp closed
        exact absurd ((ofHexDigits?_inv h).2 '&' (by simp)) (by decide)
      rwa [stripAmp, unclosed, if_neg Bool.false_ne_true]
    · rw [stripAmp, List.getLast?_concat, beq_self_eq_true, if_pos rfl, List.dropLast_concat]
      exact h

/-- Digits behind `&h` are a number, which takes a closing sign with it. -/
theorem inCode_hexadecimal (hletter : (letter == 'h' || letter == 'H') = true)
    {closing : List Char} (hne : digits ≠ []) (hdigits : ∀ c ∈ digits, isHexDigit c = true)
    (hclosing : closing = [] ∨ closing = ['&']) :
    inCode '&' (letter :: (digits ++ closing)) =
      (numberToken (ofHexDigits? digits), (letter :: (digits ++ closing)).length) := by
  have noDigit : ∀ c ∈ closing.head?, isHexDigit c = false := by
    obtain rfl | rfl := hclosing
    · exact nofun
    · rintro _ ⟨⟩
      rfl
  have count : digits.length ≠ 0 := fun h => hne (List.length_eq_zero_iff.mp h)
  have length : hexLength ('&' :: letter :: (digits ++ closing)) =
      digits.length + closing.length + 2 := by
    rw [hexLength_cons, if_pos hletter]
    simp only [takeWhile_run hdigits noDigit, count, if_false, List.drop_left]
    obtain rfl | rfl := hclosing
    · rfl
    · exact Nat.add_right_comm digits.length 2 1
  have kept : (digits ++ closing).filter (· != '&') = digits := by
    rw [List.filter_append, List.filter_eq_self.mpr fun c hc => ?_]
    · obtain rfl | rfl := hclosing
      · exact List.append_nil digits
      · exact List.append_nil digits
    · rw [bne_iff_ne]
      rintro rfl
      exact absurd (hdigits _ hc) (by decide)
  have all : (letter :: (digits ++ closing)).take (digits.length + closing.length + 1) =
      letter :: (digits ++ closing) :=
    List.take_of_length_le (by simp)
  rw [inCode_amp, length, if_neg (Nat.succ_ne_zero _), Nat.add_succ_sub_one, all, List.drop_succ_cons, List.drop_zero, kept, List.length_cons,
    List.length_append]

/-- **Hexadecimal numbers** are the digits behind `&h`, with at most one `&` behind them. -/
theorem isHexadecimal_iff : IsHexadecimal chars x ↔
    ∃ letter rest, (letter == 'h' || letter == 'H') = true ∧ chars = '&' :: letter :: rest ∧
      ofHexDigits? (stripAmp rest) = some x := by
  simp only [ofHexDigits?_stripAmp]
  constructor
  · rintro ⟨⟨_, rest, rfl, read⟩, ⟨⟩⟩
    have notAmp : hexLength ('&' :: rest) ≠ 0 := by
      intro length
      rw [inCode_amp, if_pos length] at read
      cases read
    cases rest with
    | nil => exact absurd rfl notAmp
    | cons letter rest =>
      obtain ⟨closing, hrest, hclosing⟩ := exists_run isHexDigit rest
      have hdigits : ∀ c ∈ rest.takeWhile isHexDigit, isHexDigit c = true := fun c hc =>
        List.all_eq_true.mp List.all_takeWhile c hc
      have length : hexLength ('&' :: letter :: rest) - 1 = (letter :: rest).length := by
        rw [inCode_amp, if_neg notAmp] at read
        exact congrArg Prod.snd read
      rw [hexLength_cons] at notAmp length
      split at notAmp
      case isFalse => exact absurd rfl notAmp
      case isTrue hletter =>
        rw [if_pos hletter] at length
        dsimp only at notAmp length
        generalize rest.takeWhile isHexDigit = digits at hrest hdigits notAmp length
        subst hrest
        split at notAmp
        case isTrue => exact absurd rfl notAmp
        case isFalse count =>
          rw [if_neg count, List.drop_left, List.length_cons, List.length_append] at length
          have closed : closing = [] ∨ closing = ['&'] := by
            split at length
            case isTrue amp =>
              rw [starts_beq, beq_iff_eq, List.head?_eq_some_iff] at amp
              obtain ⟨tail, rfl⟩ := amp
              rw [List.length_cons] at length
              have nothing : tail.length = 0 := by omega
              exact .inr (congrArg _ (List.length_eq_zero_iff.mp nothing))
            case isFalse =>
              exact .inl (List.length_eq_zero_iff.mp (by omega))
          have hne : digits ≠ [] := fun h => count (List.length_eq_zero_iff.mpr h)
          rw [inCode_hexadecimal hletter hne hdigits closed] at read
          refine ⟨letter, _, hletter, rfl, digits, ?_, numberToken_eq.mp (Prod.mk.inj read).1⟩
          obtain rfl | rfl := closed
          · exact .inl (List.append_nil digits)
          · exact .inr rfl
  · rintro ⟨letter, rest, hletter, rfl, digits, hrest, value⟩
    obtain ⟨hne, hdigits⟩ := ofHexDigits?_inv value
    have closing : ∃ closing, rest = digits ++ closing ∧ (closing = [] ∨ closing = ['&']) := by
      obtain rfl | rfl := hrest
      · exact ⟨[], (List.append_nil _).symm, .inl rfl⟩
      · exact ⟨['&'], rfl, .inr rfl⟩
    obtain ⟨closing, rfl, hclosing⟩ := closing
    refine ⟨isWhole_cons.mpr ?_, rfl⟩
    rw [inCode_hexadecimal hletter hne hdigits hclosing, value]
    rfl

/-! ## Texts -/

theorem isPlusHexadecimal_iff : IsPlusHexadecimal chars x ↔
    ∃ letter rest, (letter == 'h' || letter == 'H') = true ∧
      chars = '&' :: letter :: '+' :: rest ∧ ofHexDigits? (stripAmp rest) = some x := by
  constructor
  · rintro ⟨hex⟩
    obtain ⟨_, _, hletter, ⟨⟩, value⟩ := isHexadecimal_iff.mp hex
    exact ⟨_, _, hletter, rfl, value⟩
  · rintro ⟨letter, rest, hletter, rfl, value⟩
    exact .mk (isHexadecimal_iff.mpr ⟨letter, rest, hletter, rfl, value⟩)

/-- Without the sign of a hexadecimal number a text is a decimal, with a sign or without. -/
theorem ofSignedNumeral?_iff (head : ∀ letter rest,
    (letter == 'h' || letter == 'H') = true → chars ≠ '&' :: letter :: rest) :
    ofSignedNumeral? chars = some x ↔ IsLiteral chars x := by
  have noHexadecimal : ¬ IsHexadecimal chars x := by
    intro hex
    obtain ⟨letter, rest, hletter, same, -⟩ := isHexadecimal_iff.mp hex
    exact head letter rest hletter same
  have unsigned {c : Char} {rest : List Char} (h : c = '-' ∨ c = '+') :
      ¬ IsDecimal (c :: rest) x := by
    rw [isDecimal_iff]
    obtain rfl | rfl := h
    · rw [ofNumeral?_eq_none rfl (by decide)]
      nofun
    · rw [ofNumeral?_eq_none rfl (by decide)]
      nofun
  unfold ofSignedNumeral?
  split
  · rename_i rest
    constructor
    · intro h
      obtain ⟨d, hd, rfl⟩ := Option.map_eq_some_iff.mp h
      exact .negative (isDecimal_iff.mpr (Option.map_eq_some_iff.mpr ⟨d, hd, rfl⟩))
    · rintro (decimal | _ | decimal | hex)
      · exact absurd decimal (unsigned (.inl rfl))
      · rw [isDecimal_iff] at decimal
        obtain ⟨d, hd, rfl⟩ := Option.map_eq_some_iff.mp decimal
        exact Option.map_eq_some_iff.mpr ⟨d, hd, rfl⟩
      · exact absurd hex noHexadecimal
  · rename_i rest
    rw [← isDecimal_iff]
    refine ⟨.positive, ?_⟩
    rintro (decimal | decimal | _ | hex)
    · exact absurd decimal (unsigned (.inr rfl))
    · exact decimal
    · exact absurd hex noHexadecimal
  · rename_i minus plus
    rw [← isDecimal_iff]
    refine ⟨.decimal, ?_⟩
    rintro (decimal | _ | _ | hex)
    · exact decimal
    · exact absurd rfl (plus _)
    · exact absurd rfl (minus _)
    · exact absurd hex noHexadecimal

theorem stripAmp_prefix (chars : List Char) : stripAmp chars <+: chars := by
  rw [stripAmp]
  split
  · exact List.dropLast_prefix chars
  · exact List.prefix_refl chars

theorem stripAmp_cons (head : c ≠ '&') : stripAmp (c :: rest) = c :: stripAmp rest := by
  cases rest with
  | nil =>
    have unclosed : ([c].getLast? == some '&') = false :=
      beq_eq_false_iff_ne.mpr fun same => head (Option.some.inj same)
    rw [stripAmp, unclosed]
    rfl
  | cons d rest =>
    rw [stripAmp, stripAmp, List.getLast?_cons_cons, List.dropLast_cons_of_ne_nil (by simp)]
    split <;> rfl

/-- Behind `&h` a text may have a plus sign in front of its digits. -/
theorem ofHexDigits?_plus : (match stripAmp rest with
      | '+' :: digits => ofHexDigits? digits
      | digits => ofHexDigits? digits) = some x ↔
    ofHexDigits? (stripAmp rest) = some x ∨
      ∃ digits, rest = '+' :: digits ∧ ofHexDigits? (stripAmp digits) = some x := by
  by_cases plus : ∃ digits, rest = '+' :: digits
  · obtain ⟨digits, rfl⟩ := plus
    have noDigit : ofHexDigits? ('+' :: stripAmp digits) ≠ some x := fun h =>
      absurd ((ofHexDigits?_inv h).2 '+' List.mem_cons_self) (by decide)
    rw [stripAmp_cons (by decide), or_iff_right noDigit]
    refine ⟨fun h => ⟨digits, rfl, h⟩, ?_⟩
    rintro ⟨_, ⟨⟩, h⟩
    exact h
  · rw [or_iff_left fun ⟨digits, h, _⟩ => plus ⟨digits, h⟩]
    split
    · rename_i digits stripped
      obtain ⟨behind, hrest⟩ := stripped ▸ stripAmp_prefix rest
      exact absurd ⟨_, hrest.symm⟩ plus
    · exact Iff.rfl

theorem isLiteral_iff_isHexadecimal : IsLiteral ('&' :: rest) x ↔ IsHexadecimal ('&' :: rest) x := by
  refine ⟨?_, .hexadecimal⟩
  rintro (decimal | _ | _ | hex)
  · exact absurd rfl decimal.2
  · exact hex

/-- **Which texts are read as a number**: without the blanks around it the text is a literal, or one
but for a plus sign in front of its hexadecimal digits. -/
theorem readNumber?_iff {text : String} : readNumber? text = some x ↔
    IsLiteral (Text.trimBlanks text.toList) x ∨
      IsPlusHexadecimal (Text.trimBlanks text.toList) x := by
  have hexadecimal {letter : Char} (rest : List Char)
      (hletter : (letter == 'h' || letter == 'H') = true) :
      IsLiteral ('&' :: letter :: rest) x ∨ IsPlusHexadecimal ('&' :: letter :: rest) x ↔
        (match stripAmp rest with
          | '+' :: digits => ofHexDigits? digits
          | digits => ofHexDigits? digits) = some x := by
    rw [ofHexDigits?_plus, isLiteral_iff_isHexadecimal, isHexadecimal_iff, isPlusHexadecimal_iff]
    refine or_congr ?_ ?_
    · refine ⟨?_, fun h => ⟨letter, rest, hletter, rfl, h⟩⟩
      rintro ⟨_, _, -, ⟨⟩, h⟩
      exact h
    · constructor
      · rintro ⟨_, digits, -, ⟨⟩, h⟩
        exact ⟨digits, rfl, h⟩
      · rintro ⟨digits, rfl, h⟩
        exact ⟨letter, digits, hletter, rfl, h⟩
  unfold readNumber?
  split
  · rename_i rest chars
    rw [chars]
    exact (hexadecimal rest rfl).symm
  · rename_i rest chars
    rw [chars]
    exact (hexadecimal rest rfl).symm
  · rename_i upper lower
    have head (letter : Char) (rest : List Char) (hletter : (letter == 'h' || letter == 'H') = true) :
        Text.trimBlanks text.toList ≠ '&' :: letter :: rest := by
      rw [Bool.or_eq_true, beq_iff_eq, beq_iff_eq] at hletter
      obtain rfl | rfl := hletter
      · exact lower rest
      · exact upper rest
    rw [ofSignedNumeral?_iff head, or_iff_left]
    intro plus
    obtain ⟨letter, rest, hletter, same, -⟩ := isPlusHexadecimal_iff.mp plus
    exact head letter _ hletter same

end Number

/-- **Numeric strings.**  A text converts to a number if, without the blanks around it, it is a
numeral with or without a sign or a hexadecimal number, as script code has them, or such a hexadecimal
number with a plus sign in front of its digits; it converts to the number that the literal denotes.
Every other text is refused with its spelling. -/
theorem Value.toNumber_string (text : String) :
    (∀ x, (Value.string text).toNumber = .ok x ↔
      Number.IsLiteral (Text.trimBlanks text.toList) x ∨
        Number.IsPlusHexadecimal (Text.trimBlanks text.toList) x) ∧
    ((Value.string text).toNumber =
        .error (.typeMismatch ("\"" ++ text ++ "\" is not a number") .string) ↔
      ∀ x, ¬ Number.IsLiteral (Text.trimBlanks text.toList) x ∧
        ¬ Number.IsPlusHexadecimal (Text.trimBlanks text.toList) x) := by
  constructor
  · intro x
    rw [← Number.readNumber?_iff, toNumber]
    cases readNumber? text with
    | some value => rw [Except.ok.injEq, Option.some.injEq]
    | none => exact iff_of_false nofun nofun
  · simp only [← not_or, ← Number.readNumber?_iff]
    rw [toNumber]
    cases readNumber? text with
    | some value => exact iff_of_false nofun fun none => none value rfl
    | none => exact iff_of_true rfl nofun

/-- A plus sign behind `&H` keeps a text from being a literal, not from being converted. -/
theorem Value.toNumber_plus_hexadecimal :
    (Value.string "&H+1F").toNumber = .ok 31 ∧
      ∀ x, ¬ Number.IsLiteral (Text.trimBlanks "&H+1F".toList) x := by
  refine ⟨rfl, fun x literal => ?_⟩
  have chars : Text.trimBlanks "&H+1F".toList = ['&', 'H', '+', '1', 'F'] := by decide
  rw [chars, Number.isLiteral_iff_isHexadecimal] at literal
  obtain ⟨letter, rest, -, same, value⟩ := Number.isHexadecimal_iff.mp literal
  obtain ⟨-, -, rfl⟩ : '&' = '&' ∧ 'H' = letter ∧ ['+', '1', 'F'] = rest := by simpa using same
  cases value

end PageScript
