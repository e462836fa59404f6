import PageScript.Proofs.Machine.Deeds
import PageScript.Proofs.Number.Integral
import PageScript.Proofs.Syntax.RoundTrip
import PageScript.Value.Operator

/-!
# Proofs/Value/IntegerText — integers as texts and back

An integer of magnitude at most `2 ^ 53` leaves a script as its decimal form, and that form brings the
integer back, be it as the text of a value or as source (`integer_roundTrip`).
-/

namespace PageScript

open Number

variable {x : Float} {n : ℤ}

/-! ## Writing -/

/-- **The text of an integer**, whatever the sign of zero. -/
theorem Value.numberText_of_integer (value : value? x = some (n : ℚ)) (le : n.natAbs ≤ 2 ^ 53) :
    numberText x = toString n := by
  rw [numberText]
  obtain rfl | nonzero := eq_or_ne n 0
  · rw [if_pos ((beq_iff value value?_zero).mpr Int.cast_zero)]
    rfl
  · rw [if_neg ((beq_iff value value?_zero).not.mpr (Int.cast_ne_zero.mpr nonzero)),
      plain_of_integer value nonzero le]

/-! ## Reading -/

theorem Text.trimBlanks_eq_self {chars : List Char} (h : ∀ c ∈ chars, isBlank c = false) :
    trimBlanks chars = chars := by
  have kept {chars : List Char} (h : ∀ c ∈ chars, isBlank c = false) :
      chars.dropWhile isBlank = chars := by
    cases chars with
    | nil => rfl
    | cons c rest => exact List.dropWhile_cons_of_neg (by rw [h c List.mem_cons_self]; nofun)
  rw [trimBlanks, kept h, kept fun c hc => h c (List.mem_reverse.mp hc), List.reverse_reverse]

theorem Text.isBlank_of_isDigit {c : Char} (h : c.isDigit = true) : isBlank c = false := by
  have range : 48 ≤ c.toNat ∧ c.toNat ≤ 57 := by
    rw [Char.isDigit, Bool.and_eq_true, decide_eq_true_iff, decide_eq_true_iff] at h
    exact h
  simp only [isBlank, Bool.or_eq_false_iff, Bool.and_eq_false_iff, decide_eq_false_iff_not,
    beq_eq_false_iff_ne]
  omega

/-- The decimal form of an integer. -/
theorem toList_toString (n : ℤ) :
    (toString n).toList = digits n.natAbs ∨ (toString n).toList = '-' :: digits n.natAbs := by
  cases n with
  | ofNat k => exact .inl Nat.toList_repr
  | negSucc k =>
    refine .inr ?_
    change ("-" ++ (k + 1).repr).toList = _
    rw [String.toList_append, Nat.toList_repr]
    rfl

theorem readNumber?_toString (le : n.natAbs ≤ 2 ^ 53) :
    readNumber? (toString n) = some (ofInteger n) := by
  have starts : ∀ c ∈ (toString n).toList, c = '-' ∨ c.isDigit = true := by
    intro c hc
    obtain chars | chars := toList_toString n <;> rw [chars] at hc
    · exact .inr (isDigit_of_mem_digits hc)
    · exact (List.mem_cons.mp hc).imp_right isDigit_of_mem_digits
  have blank : ∀ c ∈ (toString n).toList, Text.isBlank c = false := by
    intro c hc
    obtain rfl | digit := starts c hc
    · rfl
    · exact Text.isBlank_of_isDigit digit
  have noAmp {rest : List Char} (same : (toString n).toList = '&' :: rest) : False := by
    obtain minus | digit := starts '&' (same ▸ List.mem_cons_self)
    · cases minus
    · cases digit
  rw [readNumber?, Text.trimBlanks_eq_self blank]
  split
  · exact (noAmp ‹_›).elim
  · exact (noAmp ‹_›).elim
  · exact ofSignedNumeral?_toString le

/-! ## Parsing -/

theorem plain_ofInteger (le : n.natAbs ≤ 2 ^ 53) : plain (ofInteger n) = toString n := by
  obtain rfl | nonzero := eq_or_ne n 0
  · decide +kernel
  · exact plain_of_integer (value?_ofInteger le) nonzero le

/-- A number is written as source like anywhere else. -/
theorem Expr.source_number (x : Float) : (Expr.literal .origin (.number x)).source = plain x := by
  have pieces (chars : List Char) : (Number.pieces [] chars).flatMap Piece.text = chars := by
    unfold Number.pieces
    split
    · exact congrArg ('-' :: ·) (List.append_nil _)
    · exact List.append_nil _
  rw [source, Expr.pieces, Literal.pieces, pieces, String.ofList_toList]

/-- **The decimal form of an integer is parsed** as a literal, the sign included. -/
theorem Expr.ofTokens?_toString (le : n.natAbs ≤ 2 ^ 53) : ∃ span,
    Expr.ofTokens? (tokensOf .code (toString n)) = .ok (.literal span (.number (ofInteger n))) := by
  have written : (Expr.literal .origin (.number (ofInteger n))).IsWrittenAs (toString n) := by
    have source := isWrittenAs_source (e := .literal .origin (.number (ofInteger n)))
      (readsBack_ofInteger le)
    rwa [source_number, plain_ofInteger le] at source
  obtain ⟨e, parsed, same⟩ := written.ofTokens?
  cases e with
  | literal span value =>
    obtain rfl : value = .number (ofInteger n) := by
      simpa [Expr.unplaced] using same
    exact ⟨span, parsed⟩
  | _ => simp [Expr.unplaced] at same

/-- **Integers survive every textual route.**  Each number that stands for the integer is written as its
decimal form, next to another text and to the response alike; read as a number or parsed as an
expression, that form is the integer again. -/
theorem integer_roundTrip (n : ℤ) (le : n.natAbs ≤ 2 ^ 53) :
    (∀ x, value? x = some (n : ℚ) →
      (Value.number x).toText = .ok (toString n) ∧
      (∀ (v : Value) (text : String), v.toText = .ok text →
        Value.applyBinary .concat (.number x) v = .ok (.string (toString n ++ text)) ∧
        Value.applyBinary .concat v (.number x) = .ok (.string (text ++ toString n))) ∧
      ∀ (s : State) (held : List CellId) (cell : CellId), s.store.read cell = .number x →
        ∃ result s', Service.call .write held [cell] s = .done result s' ∧
          s'.world.response.body = s.world.response.body ++ toString n) ∧
    ∃ y span, value? y = some (n : ℚ) ∧ (Value.string (toString n)).toNumber = .ok y ∧
      Expr.ofTokens? (tokensOf .code (toString n)) = .ok (.literal span (.number y)) := by
  refine ⟨fun x value => ?_, ?_⟩
  · have text : (Value.number x).toText = .ok (toString n) :=
      congrArg Except.ok (Value.numberText_of_integer value le)
    refine ⟨text, fun v other written => ?_, fun s held cell read =>
      ⟨_, _, Service.call_write held (read ▸ text), rfl⟩⟩
    rw [Value.applyBinary, Value.applyBinary, text, written]
    exact ⟨rfl, rfl⟩
  · obtain ⟨span, parsed⟩ := Expr.ofTokens?_toString le
    refine ⟨ofInteger n, span, value?_ofInteger le, ?_, parsed⟩
    rw [Value.toNumber, readNumber?_toString le]

theorem integer_roundTrip_least :
    (-2 ^ 53 : ℤ).natAbs ≤ 2 ^ 53 ∧
      (Value.number (ofInteger (-2 ^ 53))).toText = .ok "-9007199254740992" ∧
      ∃ y span, (Value.string "-9007199254740992").toNumber = .ok y ∧
        Expr.ofTokens? (tokensOf .code "-9007199254740992") = .ok (.literal span (.number y)) := by
  have le : (-2 ^ 53 : ℤ).natAbs ≤ 2 ^ 53 := by decide
  have text : toString (-2 ^ 53 : ℤ) = "-9007199254740992" := by decide +kernel
  obtain ⟨written, y, span, -, number, parsed⟩ := integer_roundTrip (-2 ^ 53) le
  rw [text] at written number parsed
  exact ⟨le, (written _ (value?_ofInteger le)).1, y, span, number, parsed⟩

end PageScript
