import PageScript.Proofs.Number.Nearest
import PageScript.Proofs.Number.Shortest

/-!
# Proofs/Number/Integral — integers are written without point and exponent

An integer of magnitude at most `2 ^ 53` is a point of the grid of integers, which is tried.  So the
decimal that is chosen is an integer too, and there is no other one in the interval.
-/

namespace PageScript.Number

open Decimal (ten_zpow_pos)

variable {m n : ℕ} {e : ℤ} {x : Float}

/-! ## The grid of integers -/

theorem pos_of_value_pos (pos : 0 < n) (value : (m : ℚ) * 2 ^ e = n) : 0 < m := by
  refine Nat.pos_of_ne_zero fun zero => pos.ne' ?_
  rw [zero, Nat.cast_zero, zero_mul] at value
  exact_mod_cast value.symm

namespace Interval

variable {i : Interval} {c : ℕ}

theorem onGrid_zero (i : Interval) : i.onGrid 0 = (i, i.denominator) := by
  obtain ⟨low, middle, high, denominator, closed⟩ := i
  simp [onGrid, tenTo]

/-- A number inside its interval is found on the grid of integers if it is one. -/
theorem nearest?_zero_ne_none (pos : 0 < i.denominator) (low : i.low < i.middle)
    (high : i.middle < i.high) (integer : i.middle = c * i.denominator) : i.nearest? 0 ≠ none := by
  have whole : i.middle / i.denominator * i.denominator = i.middle := by
    rw [integer, Nat.mul_div_cancel _ pos]
  have found : i.contains (i.middle / i.denominator * i.denominator) = true :=
    whole.symm ▸ contains_iff.mpr ⟨⟨low.le, high.le⟩, fun _ => ⟨low, high⟩⟩
  rw [nearest?, onGrid_zero]
  dsimp only
  rw [found]
  cases i.contains ((i.middle / i.denominator + 1) * i.denominator) <;> exact Option.some_ne_none _

/-- The decimal that is chosen is on no finer grid than one that has a point in the interval. -/
theorem le_exponent_coarsest {magnitude : ℤ} : ∀ {tries digits k : ℕ}, k < tries →
    i.nearest? (magnitude - (digits + k : ℕ)) ≠ none →
      magnitude - (digits + k : ℕ) ≤ (i.coarsest magnitude digits tries).exponent
  | tries + 1, digits, k, less, found => by
    rw [coarsest]
    cases h : i.nearest? (magnitude - digits) with
    | some c =>
      change _ ≤ magnitude - digits
      omega
    | none =>
      cases k with
      | zero => exact absurd h found
      | succ k =>
        rw [Nat.add_comm k 1, ← Nat.add_assoc] at found ⊢
        exact le_exponent_coarsest (Nat.lt_of_succ_lt_succ less) found

theorem low_lt_middle (pos : 0 < m) : (ofBinary m e).low < (ofBinary m e).middle := by
  refine Nat.mul_lt_mul_of_pos_right ?_ (twoTo_pos _)
  have := reach_le m
  change 4 * m - reach m < 4 * m
  have : 0 < reach m := by
    rw [reach]
    split <;> omega
  omega

theorem middle_lt_high : (ofBinary m e).middle < (ofBinary m e).high :=
  Nat.mul_lt_mul_of_pos_right (Nat.lt_add_of_pos_right Nat.two_pos) (twoTo_pos _)

theorem middle_of_integer (value : (m : ℚ) * 2 ^ e = n) :
    (ofBinary m e).middle = n * (ofBinary m e).denominator := by
  have middle := middle_eq m e
  rw [value] at middle
  exact_mod_cast middle

theorem digitCount_mul_tenTo (pos : 0 < n) (k j : ℕ) (less : n < 10 ^ j) :
    k < digitCount (n * tenTo k) ∧ digitCount (n * tenTo k) ≤ j + k := by
  have product : 0 < n * tenTo k := Nat.mul_pos pos (tenTo_pos k)
  have lower : 10 ^ k < 10 ^ digitCount (n * tenTo k) :=
    (Nat.le_mul_of_pos_left _ pos).trans_lt (lt_pow_digitCount _)
  have upper : 10 ^ (digitCount (n * tenTo k) - 1) < 10 ^ (j + k) := by
    refine (pow_digitCount_le product).trans_lt ?_
    rw [Nat.pow_add]
    exact Nat.mul_lt_mul_of_pos_right less (tenTo_pos k)
  rw [Nat.pow_lt_pow_iff_right (by decide)] at lower upper
  exact ⟨lower, by omega⟩

/-- How many digits an integer has in front of the point. -/
theorem magnitude_of_integer (pos : 0 < n) (less : n < 10 ^ 16) (value : (m : ℚ) * 2 ^ e = n) :
    1 ≤ (ofBinary m e).magnitude ∧ (ofBinary m e).magnitude ≤ 16 := by
  have count := digitCount_mul_tenTo pos 324 16 less
  rw [magnitude, middle_of_integer value, Nat.mul_right_comm, Nat.mul_div_cancel _ (denominator_pos m e)]
  omega

/-- The decimal that is chosen for an integer is an integer. -/
theorem exponent_coarsest_nonneg (pos : 0 < n) (less : n < 10 ^ 16) (value : (m : ℚ) * 2 ^ e = n) :
    0 ≤ ((ofBinary m e).coarsest (ofBinary m e).magnitude 1 17).exponent := by
  obtain ⟨lower, upper⟩ := magnitude_of_integer pos less value
  obtain ⟨k, hk⟩ := Int.le.dest lower
  have significand := pos_of_value_pos pos value
  have integers : (ofBinary m e).magnitude - (1 + k : ℕ) = 0 := by omega
  have found := nearest?_zero_ne_none (denominator_pos m e) (low_lt_middle significand) middle_lt_high
    (middle_of_integer value)
  rw [← integers] at found ⊢
  exact le_exponent_coarsest (by omega) found

end Interval

/-! ## The shortest decimal of an integer -/

theorem exponent_trim_nonneg {d : Decimal} (h : 0 ≤ d.exponent) : 0 ≤ d.trim.exponent := by
  rw [Decimal.trim]
  split
  · exact le_rfl
  · exact h.trans (Int.le_add_of_nonneg_right (Int.natCast_nonneg _))

/-- An integer of less than 53 bits is the only one that rounds to its number. -/
theorem eq_of_holds_integer (canonical : IsCanonicalPair m e) (pos : 0 < n) (less : n < 2 ^ 53)
    (value : (m : ℚ) * 2 ^ e = n) {q : ℕ} (holds : (Interval.ofBinary m e).Holds q) : q = n := by
  have small : e ≤ 0 := by
    refine not_lt.mp fun large => absurd less (not_lt.mpr ?_)
    have full : (2 : ℚ) ^ 52 ≤ m := by exact_mod_cast canonical.full.resolve_right (by omega)
    have least : (2 : ℚ) ^ (1 : ℤ) ≤ 2 ^ e := zpow_le_zpow_right₀ one_le_two large
    have product := mul_le_mul full least (two_zpow_pos 1).le (Nat.cast_nonneg m)
    rw [value] at product
    norm_num at product
    exact_mod_cast product
  obtain ⟨⟨low, high⟩, -⟩ := holds.bounds (pos_of_value_pos pos value)
  have unit : (2 : ℚ) ^ (e - 2) ≤ 1 / 4 :=
    calc (2 : ℚ) ^ (e - 2) ≤ 2 ^ (-2 : ℤ) := zpow_le_zpow_right₀ one_le_two (by omega)
      _ = 1 / 4 := by norm_num
  have reaches : (Interval.reach m : ℚ) ≤ 2 := by exact_mod_cast Interval.reach_le m
  have below := mul_le_mul_of_nonneg_right reaches (two_zpow_pos (e - 2)).le
  rw [Interval.quarter_eq] at value
  generalize (2 : ℚ) ^ (e - 2) = quarter at low high unit below value
  have lower : (n : ℚ) < q + 1 := by linarith
  have upper : (q : ℚ) < n + 1 := by linarith
  exact Nat.le_antisymm (Nat.le_of_lt_succ (by exact_mod_cast upper))
    (Nat.le_of_lt_succ (by exact_mod_cast lower))

/-- **The shortest decimal of an integer** is the integer, and it is written without a point. -/
theorem shortest_of_integer (canonical : IsCanonicalPair m e) (pos : 0 < n) (le : n ≤ 2 ^ 53)
    (value : (m : ℚ) * 2 ^ e = n) :
    (shortest m e).value = n ∧ 0 ≤ (shortest m e).exponent := by
  obtain rfl | less := eq_or_lt_of_le le
  · have written : ((2 ^ 53 : ℕ) : ℚ) = (2 ^ 52 : ℕ) * 2 ^ (1 : ℤ) := by norm_num
    obtain ⟨rfl, rfl⟩ := eq_of_mul_zpow_eq canonical ⟨by decide, by decide, by decide, .inl le_rfl⟩
      (value.trans written)
    have chosen : shortest (2 ^ 52) 1 = ⟨2 ^ 53, 0⟩ := by decide +kernel
    rw [chosen, Decimal.value, zpow_zero, mul_one]
    exact ⟨rfl, le_rfl⟩
  · have significand := pos_of_value_pos pos value
    have whole : 0 ≤ (shortest m e).exponent := by
      rw [shortest, if_neg significand.ne']
      exact exponent_trim_nonneg (Interval.exponent_coarsest_nonneg pos (less.trans (by decide)) value)
    have holds := Interval.holds_shortest significand canonical.lt canonical.least
    obtain ⟨k, hk⟩ := Int.eq_ofNat_of_zero_le whole
    have natural : (shortest m e).value = ((shortest m e).coefficient * 10 ^ k : ℕ) := by
      rw [Decimal.value, hk, zpow_natCast]
      push_cast
      rfl
    rw [natural] at holds ⊢
    exact ⟨congrArg _ (eq_of_holds_integer canonical pos less value holds), whole⟩

/-! ## The text of an integer -/

theorem digits_mul_pow {c : ℕ} (pos : 0 < c) (k : ℕ) :
    digits (c * 10 ^ k) = digits c ++ List.replicate k '0' := by
  induction k with
  | zero => simp
  | succ k ih =>
    have product : 0 < c * 10 ^ k := Nat.mul_pos pos (Nat.pow_pos (by decide))
    have next := Nat.toDigits_append_toDigits (b := 10) (d := 0) (by decide) product (by decide)
    have same : c * 10 ^ (k + 1) = 10 * (c * 10 ^ k) + 0 := by ring
    rw [digits, same, ← next, List.replicate_succ', ← List.append_assoc, ← ih]
    rfl

theorem positional_of_value {d : Decimal} (pos : 0 < n) (value : d.value = n) (whole : 0 ≤ d.exponent) :
    d.positional false = toString n := by
  obtain ⟨k, hk⟩ := Int.eq_ofNat_of_zero_le whole
  have product : d.coefficient * 10 ^ k = n := by
    rw [Decimal.value, hk, zpow_natCast] at value
    exact_mod_cast value
  have coefficient : 0 < d.coefficient := Nat.pos_of_ne_zero fun zero => by
    rw [zero, Nat.zero_mul] at product
    omega
  have text : toString n = String.ofList (digits n) := rfl
  rw [Decimal.positional, if_pos whole, text, ← product, digits_mul_pow coefficient,
    String.ofList_append, hk, if_neg Bool.false_ne_true, String.append_empty]
  rfl

/-- **The plain text of an integer** other than zero is its decimal form. -/
theorem plain_of_integer {n : ℤ} (value : value? x = some (n : ℚ)) (nonzero : n ≠ 0)
    (le : n.natAbs ≤ 2 ^ 53) : plain x = toString n := by
  rw [value?] at value
  rw [plain, text]
  cases read : binary x with
  | undefined =>
    rw [read] at value
    cases value
  | infinite =>
    rw [read] at value
    cases value
  | finite negative m e =>
    rw [read] at value
    have canonical : IsCanonicalPair m e := isCanonicalPair_ofBits read
    have unit := two_zpow_pos e
    have value := Option.some.inj value
    have written (magnitude : (m : ℚ) * 2 ^ e = n.natAbs) :
        (shortest m e).text .plain = toString n.natAbs := by
      obtain ⟨value, whole⟩ := shortest_of_integer canonical (Int.natAbs_pos.mpr nonzero) le magnitude
      exact positional_of_value (Int.natAbs_pos.mpr nonzero) value whole
    have nonneg : (0 : ℚ) ≤ m * 2 ^ e := by positivity
    cases negative with
    | false =>
      have value : (m : ℚ) * 2 ^ e = n := value
      obtain ⟨k, rfl⟩ := Int.eq_ofNat_of_zero_le (a := n) (by exact_mod_cast value ▸ nonneg)
      exact (String.empty_append).trans (written value)
    | true =>
      have value : (m : ℚ) * 2 ^ e = -n := by
        rw [← value, if_pos rfl, neg_mul, neg_neg]
      obtain ⟨k, hk⟩ := Int.eq_ofNat_of_zero_le (a := -n) (by exact_mod_cast value ▸ nonneg)
      obtain ⟨k, rfl⟩ : ∃ j : ℕ, n = Int.negSucc j := ⟨k - 1, by omega⟩
      exact congrArg ("-" ++ ·) (written (value.trans (by rw [← Int.cast_neg]; rfl)))

/-! ## Reading an integer -/

theorem toFloat_of_integer {n : ℕ} (le : n ≤ 2 ^ 53) : Decimal.toFloat ⟨n, 0⟩ = Float.ofNat n := by
  obtain rfl | pos := Nat.eq_zero_or_pos n
  · rfl
  · have less : 10 ^ (digitCount n - 1) < 10 ^ 16 :=
      (pow_digitCount_le pos).trans_lt (le.trans_lt (by decide))
    rw [Nat.pow_lt_pow_iff_right (by decide)] at less
    rw [Decimal.toFloat]
    dsimp only
    rw [if_neg (by omega), if_neg (by omega), if_neg (by decide)]
    rfl

theorem isNumeral_digits (n : ℕ) : IsNumeral (digits n) :=
  .whole Nat.toDigits_ne_nil fun _ => isDigit_of_mem_digits

theorem ofNumeral?_digits (n : ℕ) : Decimal.ofNumeral? (digits n) = some ⟨n, 0⟩ := by
  have some_digit : digits n ≠ [] := Nat.toDigits_ne_nil
  rw [Decimal.ofNumeral?_whole some_digit fun _ => isDigit_of_mem_digits, digitsValue_digits]

/-- **The decimal form of an integer is read** as the number that stands for it. -/
theorem ofSignedNumeral?_toString {n : ℤ} (le : n.natAbs ≤ 2 ^ 53) :
    ofSignedNumeral? (toString n).toList = some (ofInteger n) := by
  cases n with
  | ofNat k =>
    have chars : (toString (Int.ofNat k)).toList = digits k := Nat.toList_repr
    rw [chars, ofSignedNumeral?_of_isNumeral (isNumeral_digits k), ofNumeral?_digits, Option.map_some,
      toFloat_of_integer (n := k) le, ofInteger]
  | negSucc k =>
    have chars : (toString (Int.negSucc k)).toList = '-' :: digits (k + 1) := by
      change ("-" ++ (k + 1).repr).toList = _
      rw [String.toList_append, Nat.toList_repr]
      rfl
    rw [chars, ofSignedNumeral?, ofNumeral?_digits, Option.map_some, toFloat_of_integer (n := k + 1) le,
      ofInteger]

theorem readsBack_ofInteger {n : ℤ} (le : n.natAbs ≤ 2 ^ 53) : ReadsBack (ofInteger n) := by
  rw [ReadsBack]
  obtain rfl | nonzero := eq_or_ne n 0
  · decide +kernel
  · rw [plain_of_integer (value?_ofInteger le) nonzero le, ofSignedNumeral?_toString le]

end PageScript.Number
