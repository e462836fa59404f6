import PageScript.Proofs.Number.Literals
import PageScript.Proofs.Number.Overflow
import PageScript.Proofs.Token.Standing

/-!
# Proofs/Value/NumericText — the numbers that texts bring in

Neither a literal nor a text that is read as a number is ever the undefined number.  But numerals have no
bound, and one that is too large is read as infinite (`numericText_bounded`).
-/

namespace PageScript

namespace Number

open Lexeme Float.Model Float.Model.UnpackedFloat

variable {x : Float} {v : ℚ} {c : Char} {chars rest : List Char}

/-! ## Signs -/

theorem unpack_of_infinite (h : binary x = .infinite false) :
    x.toModel.unpack = .infinity .positive := by
  change Binary.ofBits x.toBits.toBitVec.toNat = _ at h
  change UnpackedFloat.unpack .binary64 x.toBits.toBitVec = _
  rw [ofBits_eq] at h
  rw [unpack_eq]
  dsimp only at h ⊢
  split at h
  case isTrue special =>
    split at h
    case isTrue whole =>
      rw [if_pos special, if_pos whole, Binary.infinite.inj h]
      rfl
    case isFalse => cases h
  case isFalse => split at h <;> cases h

theorem binary_neg_of_infinite (h : binary x = .infinite false) : binary (-x) = .infinite true := by
  have negated : -x = Float.ofModel (Float.Model.pack x.toModel.unpack.neg) := rfl
  rw [negated, unpack_of_infinite h]
  rfl

/-! ## Numerals that are too large -/

/-- The characters are a numeral whose value is rounded beyond the greatest number. -/
def IsTooLarge (chars : List Char) : Prop := ∃ d, Decimal.ofNumeral? chars = some d ∧ limit ≤ d.value

/-- What is behind the sign of a text, if one is in front of it. -/
def unsigned : List Char → List Char
  | '+' :: rest | '-' :: rest => rest
  | chars => chars

/-- The number is finite unless the characters are too large a numeral; then it is infinite, and it has
the sign. -/
def IsBounded (chars : List Char) (negative : Bool) (x : Float) : Prop :=
  isFinite x = true ∧ ¬ IsTooLarge chars ∨ binary x = .infinite negative ∧ IsTooLarge chars

theorem isFinite_of_isSized (sized : IsSized v (binary x)) (small : v < limit) : isFinite x = true := by
  rw [isFinite]
  generalize binary x = b at sized
  cases sized with
  | infinite large => exact absurd small (not_lt.mpr large)
  | finite => rfl

theorem binary_of_isSized (sized : IsSized v (binary x)) (large : limit ≤ v) :
    binary x = .infinite false := by
  generalize binary x = b at sized
  cases sized with
  | infinite => rfl
  | finite small => exact absurd small (not_lt.mpr large)

variable {d : Decimal}

theorem isTooLarge_iff (h : Decimal.ofNumeral? chars = some d) : IsTooLarge chars ↔ limit ≤ d.value := by
  refine ⟨?_, fun large => ⟨d, h, large⟩⟩
  rintro ⟨d', h', large⟩
  cases h.symm.trans h'
  exact large

theorem not_isTooLarge_of_none (h : Decimal.ofNumeral? chars = none) : ¬ IsTooLarge chars := by
  rintro ⟨d, h', -⟩
  rw [h] at h'
  cases h'

theorem isBounded_toFloat (h : Decimal.ofNumeral? chars = some d) : IsBounded chars false d.toFloat := by
  rw [IsBounded, isTooLarge_iff h]
  obtain small | large := lt_or_ge d.value limit
  · exact .inl ⟨isFinite_of_isSized (isSized_toFloat d) small, not_le.mpr small⟩
  · exact .inr ⟨binary_of_isSized (isSized_toFloat d) large, large⟩

theorem IsBounded.neg (h : IsBounded chars false x) : IsBounded chars true (-x) :=
  h.imp (And.imp_left isFinite_neg) (And.imp_left binary_neg_of_infinite)

/-- A hexadecimal number is finite. -/
theorem isFinite_of_ofHexDigits? {digits : List Char} (h : ofHexDigits? digits = some x) :
    isFinite x = true := by
  rw [ofHexDigits?] at h
  split at h
  · cases h
  dsimp only at h
  split at h
  case isTrue less =>
    cases h
    refine isFinite_of_isSized (isSized_ofNat _) (lt_of_lt_of_le (b := 2 ^ 64) ?_ ?_)
    · exact_mod_cast less
    · exact two_pow_le_limit (by decide)
  case isFalse => cases h

/-- A hexadecimal number is no numeral, and it is finite. -/
theorem isBounded_of_ofHexDigits? {digits : List Char} (h : ofHexDigits? digits = some x)
    (negative : Bool) : IsBounded ('&' :: rest) negative x :=
  .inl ⟨isFinite_of_ofHexDigits? h, not_isTooLarge_of_none (ofNumeral?_eq_none rfl (by decide))⟩

/-! ## Literals -/

/-- What a number of script code is read from: its characters as a numeral, or hexadecimal digits. -/
theorem exists_of_inCode {more : ℕ} (h : inCode c rest = (.token (.number x), more)) :
    (∃ d, Decimal.ofNumeral? (c :: rest.take more) = some d ∧ d.toFloat = x) ∨
      c = '&' ∧ ∃ digits, ofHexDigits? digits = some x := by
  have numeral {length : ℕ} (pos : length ≠ 0)
      (h : (ofNumeral ((c :: rest).take length), length - 1) = (.token (.number x), more)) :
      ∃ d, Decimal.ofNumeral? (c :: rest.take more) = some d ∧ d.toFloat = x := by
    obtain ⟨read, rfl⟩ := Prod.mk.inj h
    obtain ⟨length, rfl⟩ := Nat.exists_eq_succ_of_ne_zero pos
    exact Option.map_eq_some_iff.mp (numberToken_eq.mp read)
  obtain digit | rfl | rfl := head_of_inCode h
  · rw [inCode_of_isDigit digit] at h
    refine .inl (numeral ?_ h)
    rw [numeralLength_of_starts, List.takeWhile_cons_of_pos digit, List.length_cons]
    dsimp only
    omega
  · rw [inCode_dot] at h
    split at h
    · cases h
    · exact .inl (numeral ‹_› h)
  · rw [inCode_amp] at h
    split at h
    · cases h
    · exact .inr ⟨rfl, _, numberToken_eq.mp (Prod.mk.inj h).1⟩

/-- **Number literals are bounded** by what they are written as. -/
theorem isBounded_of_mem_tilesOf {region : Region} {source : String} {t : Tile}
    (ht : t ∈ tilesOf region source) (kind : t.token.kind = .number x) : IsBounded t.chars false x := by
  have inside := (isTiling_tilesOf region source).nonempty t ht (by rw [kind]; nofun)
  obtain ⟨q, c, rest, -, found, -, chars⟩ := exists_comesTo_of_mem ht inside
  rw [kind] at found
  rw [chars]
  cases region : q.region with
  | markup =>
    have admits := Place.lexeme_token found
    rw [region] at admits
    cases admits with
    | opener h => cases h
  | code =>
    have lexeme : q.lexeme c rest = inCode c rest := Place.lexeme_code region
    rw [lexeme] at found ⊢
    obtain ⟨d, read, rfl⟩ | ⟨rfl, digits, read⟩ := exists_of_inCode found
    · exact isBounded_toFloat read
    · exact isBounded_of_ofHexDigits? read false

/-! ## Texts -/

theorem isBounded_of_isDecimal (h : IsDecimal chars x) : IsBounded chars false x := by
  obtain ⟨d, read, rfl⟩ := Option.map_eq_some_iff.mp (isDecimal_iff.mp h)
  exact isBounded_toFloat read

/-- A numeral has no sign in front of it. -/
theorem unsigned_of_isDecimal (h : IsDecimal chars x) :
    unsigned chars = chars ∧ (chars.head? == some '-') = false := by
  have signed {c : Char} {rest : List Char} (digit : c.isDigit = false) (point : c ≠ '.') :
      chars ≠ c :: rest := by
    rintro rfl
    rw [isDecimal_iff, ofNumeral?_eq_none digit point] at h
    cases h
  constructor
  · unfold unsigned
    split
    · exact absurd rfl (signed rfl (by decide))
    · exact absurd rfl (signed rfl (by decide))
    · rfl
  · rw [beq_eq_false_iff_ne]
    intro minus
    obtain ⟨rest, same⟩ := List.head?_eq_some_iff.mp minus
    exact signed rfl (by decide) same

/-- **Texts that are read as a number are bounded** by the numeral behind their sign. -/
theorem isBounded_of_readNumber? {text : String} (h : readNumber? text = some x) :
    IsBounded (unsigned (Text.trimBlanks text.toList))
      ((Text.trimBlanks text.toList).head? == some '-') x := by
  rw [readNumber?_iff] at h
  generalize Text.trimBlanks text.toList = chars at h ⊢
  cases h with
  | inl literal =>
    cases literal with
    | decimal decimal =>
      obtain ⟨same, positive⟩ := unsigned_of_isDecimal decimal
      rw [same, positive]
      exact isBounded_of_isDecimal decimal
    | positive decimal => exact isBounded_of_isDecimal decimal
    | negative decimal => exact (isBounded_of_isDecimal decimal).neg
    | hexadecimal hex =>
      obtain ⟨letter, rest, -, rfl, read⟩ := isHexadecimal_iff.mp hex
      exact isBounded_of_ofHexDigits? read _
  | inr plus =>
    obtain ⟨letter, rest, -, rfl, read⟩ := isPlusHexadecimal_iff.mp plus
    exact isBounded_of_ofHexDigits? read _

end Number

/-- **Numeric texts are finite or too large.**  A number literal stands for a finite number unless its
characters are a numeral beyond the greatest number; a text is no number, or it is finite unless what is
behind its sign is such a numeral.  Those alone stand for infinity. -/
theorem numericText_bounded (region : Region) (source text : String) :
    (∀ token ∈ tokensOf region source, ∀ x, token.kind = .number x →
      ∃ t ∈ tilesOf region source, t.token = token ∧ Number.IsBounded t.chars false x) ∧
    ((∃ x, (Value.string text).toNumber = .ok x ∧
        Number.IsBounded (Number.unsigned (Text.trimBlanks text.toList))
          ((Text.trimBlanks text.toList).head? == some '-') x) ∨
      (Value.string text).toNumber =
        .error (.typeMismatch ("\"" ++ text ++ "\" is not a number") .string)) := by
  constructor
  · intro token mem x kind
    rw [← map_token_tilesOf] at mem
    obtain ⟨t, ht, rfl⟩ := List.mem_map.mp mem
    exact ⟨t, ht, rfl, Number.isBounded_of_mem_tilesOf ht kind⟩
  · rw [Value.toNumber]
    cases read : readNumber? text with
    | some x => exact .inl ⟨x, rfl, Number.isBounded_of_readNumber? read⟩
    | none => exact .inr rfl

theorem numericText_bounded_answer :
    (∃ t ∈ tilesOf .code "42", t.token.kind = .number 42 ∧ Number.IsBounded t.chars false 42) ∧
      ∃ x, (Value.string "-1e2").toNumber = .ok x ∧ Number.IsBounded "1e2".toList true x := by
  have tokens : tokensOf .code "42" =
      [⟨.number 42, ⟨0, 2⟩, false, false⟩, ⟨.endOfPage, ⟨2, 2⟩, true, false⟩] := by
    with_unfolding_all rfl
  have first : (⟨.number 42, ⟨0, 2⟩, false, false⟩ : Token) ∈ tokensOf .code "42" :=
    tokens ▸ List.mem_cons_self
  obtain ⟨t, ht, token, bounded⟩ := (numericText_bounded .code "42" "-1e2").1 _ first 42 rfl
  refine ⟨⟨t, ht, congrArg Token.kind token, bounded⟩, ?_⟩
  obtain ⟨x, read, bounded⟩ | refused := (numericText_bounded .code "42" "-1e2").2
  · exact ⟨x, read, bounded⟩
  · cases refused

/-- A numeral brings infinity in, as a literal and as a text. -/
theorem numericText_infinite :
    Number.isFinite (1 / 0) = false ∧
      (∃ token ∈ tokensOf .code "1e999", token.kind = .number (1 / 0)) ∧
      (Value.string "1e999").toNumber = .ok (1 / 0) := by
  have tokens : tokensOf .code "1e999" =
      [⟨.number (1 / 0), ⟨0, 5⟩, false, false⟩, ⟨.endOfPage, ⟨5, 5⟩, true, false⟩] := by
    with_unfolding_all rfl
  exact ⟨by decide +kernel, ⟨_, tokens ▸ List.mem_cons_self, rfl⟩, rfl⟩

end PageScript
