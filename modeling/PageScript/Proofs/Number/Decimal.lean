import Mathlib
import PageScript.Number.Text
import PageScript.Proofs.Token.Spelling

/-!
# Proofs/Number/Decimal — what a decimal stands for

A decimal stands for a rational number (`Decimal.value`).  Its positional text is read back to a decimal
of the same value (`ofNumeral?_positional`), so two decimals with the same text have the same value, and
trimming a decimal keeps its value (`value_trim`).
-/

namespace PageScript.Number

/-! ## Digits -/

theorem digitsValue_eq (ds : List Char) : digitsValue ds = Nat.ofDigitChars 10 ds 0 := by
  rw [digitsValue, Nat.ofDigitChars]
  exact congrArg (List.foldl · 0 ds) (funext fun _ => funext fun _ => congrArg (· + _) (Nat.mul_comm _ _))

@[simp] theorem digitsValue_digits (n : ℕ) : digitsValue (digits n) = n :=
  (digitsValue_eq _).trans Nat.ofDigitChars_ten_toDigits

theorem digitsValue_append_zeros (ds : List Char) (k : ℕ) :
    digitsValue (ds ++ List.replicate k '0') = digitsValue ds * 10 ^ k := by
  rw [digitsValue_eq, digitsValue_eq, Nat.ofDigitChars_append, Nat.ofDigitChars_replicate_zero,
    Nat.mul_comm]

theorem digitsValue_zeros_append (ds : List Char) (k : ℕ) :
    digitsValue (List.replicate k '0' ++ ds) = digitsValue ds := by
  rw [digitsValue_eq, digitsValue_eq, Nat.ofDigitChars_append, Nat.ofDigitChars_replicate_zero,
    Nat.mul_zero]

/-- A positive number is at least the power of ten with as many digits. -/
theorem pow_digitCount_le {n : ℕ} (pos : 0 < n) : 10 ^ (digitCount n - 1) ≤ n := by
  have count : digitCount n = (digits n).length := if_neg pos.ne'
  rw [count]
  obtain one | several : (digits n).length - 1 = 0 ∨ 0 < (digits n).length - 1 := Nat.eq_zero_or_pos _
  · rw [one]
    exact pos
  · refine not_lt.mp fun less => ?_
    have few := (Nat.length_toDigits_le_iff (by decide) several).mpr less
    have : (Nat.toDigits 10 n).length = (digits n).length := rfl
    omega

theorem lt_pow_digitCount (n : ℕ) : n < 10 ^ digitCount n := by
  rw [digitCount]
  split
  case isTrue zero =>
    rw [zero]
    exact Nat.one_pos
  case isFalse nonzero =>
    exact (Nat.length_toDigits_le_iff (by decide) Nat.length_toDigits_pos).mp le_rfl

theorem digitCount_pos {n : ℕ} (pos : 0 < n) : 0 < digitCount n := by
  rw [digitCount, if_neg pos.ne']
  exact Nat.length_toDigits_pos

namespace Decimal

/-! ## Values -/

/-- The rational number that a decimal stands for. -/
def value (d : Decimal) : ℚ := d.coefficient * 10 ^ d.exponent

theorem ten_zpow_pos (e : ℤ) : (0 : ℚ) < 10 ^ e := zpow_pos (by norm_num) e

theorem value_mk_mul (c k : ℕ) (e : ℤ) : value ⟨c * 10 ^ k, e⟩ = value ⟨c, e + k⟩ := by
  rw [value, value, zpow_add₀ (by norm_num), zpow_natCast]
  push_cast
  ring

/-- The trailing zeros among the digits of a number are factors ten. -/
theorem tenTo_dvd (n : ℕ) : tenTo ((digits n).reverse.takeWhile (· == '0')).length ∣ n := by
  have split := List.takeWhile_append_dropWhile (p := (· == '0')) (l := (digits n).reverse)
  have zeros : (digits n).reverse.takeWhile (· == '0') =
      List.replicate ((digits n).reverse.takeWhile (· == '0')).length '0' :=
    List.eq_replicate_of_mem fun c hc => by simpa using List.mem_takeWhile_imp hc
  generalize (digits n).reverse.takeWhile (· == '0') = ending at split zeros ⊢
  have parted : digits n = ((digits n).reverse.dropWhile (· == '0')).reverse ++
      List.replicate ending.length '0' := by
    rw [← List.reverse_replicate, ← List.reverse_append, ← zeros, split, List.reverse_reverse]
  have value := congrArg digitsValue parted
  rw [digitsValue_digits, digitsValue_append_zeros] at value
  exact ⟨_, value.trans (Nat.mul_comm _ _)⟩

theorem value_trim (d : Decimal) : d.trim.value = d.value := by
  rw [trim]
  split
  case isTrue zero => simp [value, zero]
  case isFalse =>
    obtain ⟨c, hc⟩ := tenTo_dvd d.coefficient
    generalize ((digits d.coefficient).reverse.takeWhile (· == '0')).length = k at hc ⊢
    have quotient : d.coefficient / tenTo k = c := by
      rw [hc]
      exact Nat.mul_div_cancel_left c (tenTo_pos k)
    rw [quotient, ← value_mk_mul]
    exact congrArg value (congrArg (mk · d.exponent) ((Nat.mul_comm _ _).trans hc.symm))

/-! ## Reading back -/

variable {ds : List Char}

theorem ofNumeral?_whole (some_digit : ds ≠ []) (h : ∀ c ∈ ds, c.isDigit = true) :
    ofNumeral? ds = some ⟨digitsValue ds, 0⟩ := by
  simp [ofNumeral?, List.takeWhile_eq_self_iff.mpr h, List.dropWhile_eq_nil_iff.mpr h, some_digit]

theorem ofNumeral?_fraction (fs : List Char) (some_digit : ds ≠ []) (h : ∀ c ∈ ds, c.isDigit = true)
    (h' : ∀ c ∈ fs, c.isDigit = true) :
    ofNumeral? (ds ++ '.' :: fs) = some ⟨digitsValue (ds ++ fs), -fs.length⟩ := by
  have point : ∀ c ∈ ('.' :: fs).head?, c.isDigit = false := by simp
  simp [ofNumeral?, takeWhile_run h point, dropWhile_run h point, List.takeWhile_eq_self_iff.mpr h',
    List.dropWhile_eq_nil_iff.mpr h', some_digit]

/-- **The positional text of a decimal is read back**, if not to the same decimal, to one of the same
value. -/
theorem ofNumeral?_positional (d : Decimal) : ∃ d', ofNumeral? (d.positional false).toList = some d' ∧
    d'.value = d.value := by
  have some_digit : digits d.coefficient ≠ [] := Nat.toDigits_ne_nil
  have digit {c : Char} (hc : c ∈ digits d.coefficient) : c.isDigit = true :=
    Nat.isDigit_of_mem_toDigits (by decide) (by decide) hc
  have zero {c : Char} {k : ℕ} (hc : c ∈ List.replicate k '0') : c.isDigit = true :=
    List.eq_of_mem_replicate hc ▸ rfl
  rw [positional]
  split
  case isTrue whole =>
    obtain ⟨k, hk⟩ := Int.eq_ofNat_of_zero_le whole
    refine ⟨⟨digitsValue (digits d.coefficient ++ List.replicate k '0'), 0⟩, ?_, ?_⟩
    · rw [← ofNumeral?_whole (by simp [some_digit])
        fun c hc => (List.mem_append.mp hc).elim digit zero]
      simp [zeros, hk]
    · rw [digitsValue_append_zeros, digitsValue_digits, value_mk_mul, zero_add, ← hk]
  case isFalse below =>
    have length : ((digits d.coefficient).length : ℤ) + d.exponent ≤ (digits d.coefficient).length := by
      omega
    split
    case isTrue point =>
      obtain ⟨k, hk⟩ := Int.eq_ofNat_of_zero_le point.le
      rw [hk]
      refine ⟨⟨digitsValue (digits d.coefficient), -((digits d.coefficient).drop k).length⟩, ?_, ?_⟩
      · have in_front : (digits d.coefficient).take k ≠ [] := by
          rw [Ne, List.take_eq_nil_iff, not_or]
          exact ⟨by omega, some_digit⟩
        have read := ofNumeral?_fraction ((digits d.coefficient).drop k) in_front
          (fun c hc => digit (List.mem_of_mem_take hc)) fun c hc => digit (List.mem_of_mem_drop hc)
        rw [List.take_append_drop] at read
        simpa using read
      · have exponent : -(((digits d.coefficient).drop k).length : ℤ) = d.exponent := by
          rw [List.length_drop]
          omega
        rw [digitsValue_digits, exponent]
    case isFalse outside =>
      obtain ⟨k, hk⟩ := Int.eq_ofNat_of_zero_le (neg_nonneg.mpr (not_lt.mp outside))
      rw [hk]
      refine ⟨⟨digitsValue (['0'] ++ (List.replicate k '0' ++ digits d.coefficient)),
        -(List.replicate k '0' ++ digits d.coefficient).length⟩, ?_, ?_⟩
      · have read := ofNumeral?_fraction (List.replicate k '0' ++ digits d.coefficient)
          (List.cons_ne_nil '0' []) (fun c hc => List.mem_singleton.mp hc ▸ rfl)
          fun c hc => (List.mem_append.mp hc).elim zero digit
        simpa [zeros] using read
      · have exponent : -((List.replicate k '0' ++ digits d.coefficient).length : ℤ) = d.exponent := by
          rw [List.length_append, List.length_replicate]
          omega
        rw [exponent]
        exact congrArg value (congrArg (mk · d.exponent) ((digitsValue_zeros_append _ (k + 1)).trans
          (digitsValue_digits _)))

theorem value_eq_of_positional_eq {d d' : Decimal} (h : d.positional false = d'.positional false) :
    d.value = d'.value := by
  obtain ⟨r, read, value⟩ := ofNumeral?_positional d
  obtain ⟨r', read', value'⟩ := ofNumeral?_positional d'
  rw [h, read'] at read
  cases read
  exact value.symm.trans value'

end Decimal

end PageScript.Number
