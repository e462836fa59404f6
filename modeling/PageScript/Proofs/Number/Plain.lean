import PageScript.Number.Text
import PageScript.Proofs.Token.Spelling

/-!
# Proofs/Number/Plain — the plain written form of a number

A finite number is written as a numeral, with a minus in front if it is negative
(`chars_of_readsBack`).  Numbers whose digits read back to the same number are finite.
-/

namespace PageScript.Number

/-- The digits that a number is written with read back to the same number. -/
def ReadsBack (x : Float) : Prop := ofSignedNumeral? (plain x).toList = some x

theorem isDigit_of_mem_digits {n : Nat} {c : Char} (h : c ∈ digits n) : c.isDigit = true :=
  Nat.isDigit_of_mem_toDigits (Nat.succ_pos 9) (Nat.le_refl 10) h

theorem isDigit_of_mem_zeros {n : Nat} {c : Char} (h : c ∈ List.replicate n '0') :
    c.isDigit = true := by
  obtain rfl := List.eq_of_mem_replicate h
  rfl

/-- A decimal that is written with a point at its place is a numeral. -/
theorem isNumeral_positional (d : Decimal) : IsNumeral (d.positional false).toList := by
  have some_digit : digits d.coefficient ≠ [] := Nat.toDigits_ne_nil
  have zero : ∀ c ∈ ['0'], c.isDigit = true := by
    intro c hc
    rw [List.mem_singleton] at hc
    exact hc ▸ rfl
  rw [Decimal.positional]
  split
  · have chars : (String.ofList (digits d.coefficient) ++ zeros d.exponent.toNat ++
        if false = true then ".0" else "").toList =
        digits d.coefficient ++ List.replicate d.exponent.toNat '0' := by
      simp [zeros]
    rw [chars]
    refine .whole (by simp [some_digit]) fun c hc => ?_
    obtain hc | hc := List.mem_append.mp hc
    · exact isDigit_of_mem_digits hc
    · exact isDigit_of_mem_zeros hc
  · rename_i hexponent
    split
    · rename_i hpoint
      simp only [String.toList_append, String.toList_ofList, List.append_assoc]
      refine .fraction ?_ (fun c hc => ?_) fun c hc => ?_
      · rw [Ne, List.take_eq_nil_iff, not_or]
        exact ⟨by omega, some_digit⟩
      · exact isDigit_of_mem_digits (List.mem_of_mem_take hc)
      · exact isDigit_of_mem_digits (List.mem_of_mem_drop hc)
    · simp only [zeros, String.toList_append, String.toList_ofList, List.append_assoc]
      change IsNumeral (['0'] ++ '.' :: (List.replicate _ '0' ++ digits d.coefficient))
      refine .fraction (List.cons_ne_nil '0' []) zero fun c hc => ?_
      obtain hc | hc := List.mem_append.mp hc
      · exact isDigit_of_mem_zeros hc
      · exact isDigit_of_mem_digits hc

/-- Behind no sign, a numeral is read as it is. -/
theorem ofSignedNumeral?_of_isNumeral {chars : List Char} (h : IsNumeral chars) :
    ofSignedNumeral? chars = (Decimal.ofNumeral? chars).map Decimal.toFloat := by
  obtain ⟨c, cs, rfl, hc⟩ := h.starts
  unfold ofSignedNumeral?
  split
  · cases ‹_ :: _ = _›
    cases hc
  · cases ‹_ :: _ = _›
    cases hc
  · rfl

/-- **The characters of a number**: a numeral that reads back, or a minus and one. -/
theorem chars_of_readsBack {x : Float} (h : ReadsBack x) :
    ∃ chars d, IsNumeral chars ∧ Decimal.ofNumeral? chars = some d ∧
      ((plain x).toList = chars ∧ d.toFloat = x ∨
        (plain x).toList = '-' :: chars ∧ -d.toFloat = x) := by
  rw [ReadsBack] at h
  cases hx : binary x with
  | undefined =>
    rw [plain, text, hx] at h
    cases h
  | infinite negative =>
    rw [plain, text, hx] at h
    cases negative <;> cases h
  | finite negative significand exponent =>
    have numeral := isNumeral_positional (shortest significand exponent)
    have chars : (plain x).toList = (if negative then ['-'] else []) ++
        ((shortest significand exponent).positional false).toList := by
      rw [plain, text, hx]
      cases negative <;> simp [Decimal.text, Style.plain]
    rw [chars] at h ⊢
    cases negative with
    | false =>
      rw [if_neg Bool.false_ne_true, List.nil_append, ofSignedNumeral?_of_isNumeral numeral,
        Option.map_eq_some_iff] at h
      obtain ⟨d, hd, hvalue⟩ := h
      exact ⟨_, d, numeral, hd, .inl ⟨rfl, hvalue⟩⟩
    | true =>
      obtain ⟨d, hd, hvalue⟩ := Option.map_eq_some_iff.mp h
      exact ⟨_, d, numeral, hd, .inr ⟨rfl, hvalue⟩⟩

end PageScript.Number
