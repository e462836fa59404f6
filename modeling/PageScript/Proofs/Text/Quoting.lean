import PageScript.Number.Hexadecimal
import PageScript.Proofs.Token.Spelling

/-!
# Proofs/Text/Quoting — a quoted text can be read back

Each character can be told from how it stands between quotes, whatever is behind it (`taken_quoteChar`),
and no character starts with the closing quote.  So a quoted text determines the text, and where it ends
in a longer one (`quote_append_inj`).
-/

namespace PageScript.Text

/-! ## Hexadecimal digits -/

/-- The value of hexadecimal digits, the first one weighing most. -/
def hexValue (digits : List Char) : Nat :=
  digits.foldl (fun value c => value * 16 + Number.hexDigitValue c) 0

theorem hexDigitValue_digitChar : ∀ d < 16, Number.hexDigitValue d.digitChar = d := by decide

theorem hexValue_toDigits (n : Nat) : hexValue (Nat.toDigits 16 n) = n := by
  induction n using Nat.base_induction 16 (by decide) with
  | single d hd =>
    rw [Nat.toDigits_of_lt_base hd]
    exact (Nat.zero_add _).trans (hexDigitValue_digitChar d hd)
  | digit n d hd pos ih =>
    rw [← Nat.toDigits_append_toDigits (by decide) pos hd, Nat.toDigits_of_lt_base hd, hexValue,
      List.foldl_append]
    change hexValue (Nat.toDigits 16 n) * 16 + Number.hexDigitValue d.digitChar = _
    rw [ih, hexDigitValue_digitChar d hd, Nat.mul_comm]

theorem digitChar_ne_brace : ∀ d < 16, d.digitChar ≠ '\x7d' := by decide

theorem brace_notMem_toDigits (n : Nat) : '\x7d' ∉ Nat.toDigits 16 n := by
  induction n using Nat.base_induction 16 (by decide) with
  | single d hd =>
    rw [Nat.toDigits_of_lt_base hd, List.mem_singleton]
    exact (digitChar_ne_brace d hd).symm
  | digit n d hd pos ih =>
    rw [← Nat.toDigits_append_toDigits (by decide) pos hd, Nat.toDigits_of_lt_base hd, List.mem_append,
      List.mem_singleton, not_or]
    exact ⟨ih, (digitChar_ne_brace d hd).symm⟩

/-! ## One character -/

/-- The character that stands at the front of what is between quotes, and what is behind it; nothing in
front of the closing quote. -/
def taken : List Char → Option (Char × List Char)
  | [] | '"' :: _ => none
  | '\\' :: '0' :: rest => some ('\x00', rest)
  | '\\' :: 't' :: rest => some ('\t', rest)
  | '\\' :: 'n' :: rest => some ('\n', rest)
  | '\\' :: 'r' :: rest => some ('\r', rest)
  | '\\' :: 'u' :: _ :: rest =>
    some (.ofNat (hexValue (rest.takeWhile (· != '\x7d'))), (rest.dropWhile (· != '\x7d')).drop 1)
  | '\\' :: c :: rest => some (c, rest)
  | c :: rest => some (c, rest)

theorem taken_quoteChar (c : Char) (rest : List Char) :
    taken ((quoteChar c).toList ++ rest) = some (c, rest) := by
  unfold quoteChar
  split
  · subst c; rfl
  split
  · subst c; rfl
  split
  · subst c; rfl
  split
  · subst c; rfl
  split
  · subst c; rfl
  split
  · subst c; rfl
  split
  · have inside : ∀ d ∈ Nat.toDigits 16 c.toNat, (d != '\x7d') = true := fun d hd =>
      bne_iff_ne.mpr fun brace => brace_notMem_toDigits _ (brace ▸ hd)
    have stop : ∀ d ∈ ('\x7d' :: rest).head?, (d != '\x7d') = false := by simp
    have chars : ("\\u\x7b" ++ hexDigits c.toNat ++ "\x7d").toList ++ rest =
        '\\' :: 'u' :: '\x7b' :: (Nat.toDigits 16 c.toNat ++ '\x7d' :: rest) := by
      simp [hexDigits]
    rw [chars, taken, takeWhile_run inside stop, dropWhile_run inside stop, hexValue_toDigits]
    simp
  · have chars : c.toString.toList ++ rest = c :: rest := by simp
    rw [chars]
    unfold taken
    split <;> simp_all

/-! ## Whole texts -/

theorem chars_append_inj : ∀ {s t r r' : List Char},
    s.flatMap (fun c => (quoteChar c).toList) ++ '"' :: r =
      t.flatMap (fun c => (quoteChar c).toList) ++ '"' :: r' → s = t ∧ r = r'
  | [], [], _, _, h => ⟨rfl, List.tail_eq_of_cons_eq h⟩
  | [], d :: t, _, _, h => by
    rw [List.flatMap_cons, List.append_assoc] at h
    exact nomatch (taken_quoteChar d _).symm.trans (congrArg taken h.symm)
  | c :: s, [], _, _, h => by
    rw [List.flatMap_cons, List.append_assoc] at h
    exact nomatch (taken_quoteChar c _).symm.trans (congrArg taken h)
  | c :: s, d :: t, _, _, h => by
    rw [List.flatMap_cons, List.flatMap_cons, List.append_assoc, List.append_assoc] at h
    have same := congrArg taken h
    rw [taken_quoteChar, taken_quoteChar] at same
    obtain ⟨rfl, further⟩ := Prod.mk.inj (Option.some.inj same)
    obtain ⟨rfl, behind⟩ := chars_append_inj further
    exact ⟨rfl, behind⟩

theorem toList_quote (text : String) : (quote text).toList =
    '"' :: (text.toList.flatMap (fun c => (quoteChar c).toList) ++ ['"']) := by
  simp [quote, String.toList_join, List.flatMap_map]

/-- **A quoted text determines the text**, and where it ends in front of others. -/
theorem quote_append_inj {s t : String} {r r' : List Char}
    (h : (quote s).toList ++ r = (quote t).toList ++ r') : s = t ∧ r = r' := by
  rw [toList_quote, toList_quote, List.cons_append, List.cons_append, List.append_assoc,
    List.append_assoc] at h
  obtain ⟨same, behind⟩ := chars_append_inj (List.tail_eq_of_cons_eq h)
  exact ⟨String.toList_inj.mp same, behind⟩

end PageScript.Text
