import Mathlib
import PageScript.Number.Binary

/-!
# Proofs/Number/Exact — where floating-point arithmetic is exact

A finite number has an exact value, a rational number (`value?`); both zeros have the value zero.
Numbers are compared by their values (`lt_iff`, `le_iff`, `beq_iff`), and a sum that is an integer of
magnitude at most `2 ^ 53` is the exact sum of the values (`value?_add`).  Both are read off the
arithmetic of unpacked numbers: a sign, a significand of at most 53 bits and a power of two, where only
the least exponent allows for fewer bits (`IsCanonical`).
-/

namespace PageScript.Number

open Float.Model Float.Model.UnpackedFloat

/-! ## Values -/

/-- The exact value of a number taken apart. -/
def Binary.value? : Binary → Option ℚ
  | finite negative significand exponent =>
    some ((if negative then -significand else significand : ℚ) * 2 ^ exponent)
  | _ => none

/-- The exact value of a finite number. -/
def value? (x : Float) : Option ℚ := (binary x).value?

/-- The exact value of an unpacked number. -/
def unpackedValue? : UnpackedFloat → Option ℚ
  | .finite sign mantissa exponent _ => some (sign.apply mantissa * 2 ^ exponent)
  | .zero _ => some 0
  | _ => none

/-- A significand of 53 bits, or of fewer with the least exponent. -/
structure IsCanonicalPair (mantissa : ℕ) (exponent : ℤ) : Prop where
  lt : mantissa < 2 ^ 53
  least : -1074 ≤ exponent
  greatest : exponent ≤ 971
  full : 2 ^ 52 ≤ mantissa ∨ exponent = -1074

/-- An unpacked number as it comes out of 64 bits. -/
def IsCanonical : UnpackedFloat → Prop
  | .finite _ mantissa exponent _ => IsCanonicalPair mantissa exponent
  | _ => True

/-! ## Unpacking -/

section

variable (b : BitVec 64)

theorem toNat_unpackMantissa :
    (@unpackMantissa .binary64 b).toNat = b.toNat % 2 ^ 52 := by
  rw [unpackMantissa, BitVec.toNat_cast, BitVec.extractLsb, BitVec.extractLsb'_toNat,
    Nat.shiftRight_zero]
  rfl

theorem toNat_unpackExponent :
    (@unpackExponent .binary64 b).toNat = b.toNat / 2 ^ 52 % 2 ^ 11 := by
  rw [unpackExponent, BitVec.toNat_cast, BitVec.extractLsb, BitVec.extractLsb'_toNat,
    Nat.shiftRight_eq_div_pow]
  rfl

theorem toNat_unpackSign :
    (@unpackSign .binary64 b).toNat = b.toNat / 2 ^ 63 % 2 := by
  rw [unpackSign, BitVec.toNat_cast, BitVec.extractLsb, BitVec.extractLsb'_toNat,
    Nat.shiftRight_eq_div_pow]
  rfl

theorem ofBitVec_unpackSign : Sign.ofBitVec (@unpackSign .binary64 b) =
    if b.toNat / 2 ^ 63 % 2 == 1 then .negative else .positive := by
  have sign := toNat_unpackSign b
  rw [Sign.ofBitVec]
  split
  · rename_i zero
    rw [← sign, zero]
    rfl
  · rename_i nonzero
    have one : @unpackSign .binary64 b = 1#1 := by
      have cases : ∀ v : BitVec 1, v ≠ 0#1 → v = 1#1 := by decide
      exact cases _ nonzero
    rw [← sign, one]
    rfl

/-- The leading bit of a full significand. -/
theorem toNat_one_append (v : BitVec 52) : (1#1 ++ v).toNat = 2 ^ 52 + v.toNat := by
  rw [BitVec.toNat_append, ← Nat.shiftLeft_add_eq_or_of_lt v.isLt]
  rfl

/-- How 64 bits are unpacked, as far as numbers go. -/
theorem unpack_eq : UnpackedFloat.unpack .binary64 b =
    let sign : Sign := if b.toNat / 2 ^ 63 % 2 == 1 then .negative else .positive
    let exponent : ℕ := b.toNat / 2 ^ 52 % 2 ^ 11
    let fraction : ℕ := b.toNat % 2 ^ 52
    if exponent = 2047 then
      if fraction = 0 then .infinity sign else .notANumber
    else if exponent = 0 then
      if h : fraction = 0 then .zero sign
      else .finite sign fraction (-1074) (Nat.pos_of_ne_zero h)
    else .finite sign (2 ^ 52 + fraction) (exponent - 1075) (by positivity) := by
  have exponent := toNat_unpackExponent b
  have mantissa := toNat_unpackMantissa b
  have special : @unpackExponent .binary64 b = -1#11 ↔
      b.toNat / 2 ^ 52 % 2 ^ 11 = 2047 := by
    rw [← BitVec.toNat_inj, exponent]
    rfl
  have least : @unpackExponent .binary64 b = 0#11 ↔
      b.toNat / 2 ^ 52 % 2 ^ 11 = 0 := by
    rw [← BitVec.toNat_inj, exponent]
    rfl
  have nothing : @unpackMantissa .binary64 b = 0#52 ↔ b.toNat % 2 ^ 52 = 0 := by
    rw [← BitVec.toNat_inj, mantissa]
    rfl
  have leading : (1#1 ++ @unpackMantissa .binary64 b).toNat =
      2 ^ 52 + b.toNat % 2 ^ 52 := (toNat_one_append _).trans (congrArg _ mantissa)
  rw [UnpackedFloat.unpack, ofBitVec_unpackSign]
  dsimp only
  by_cases h : b.toNat / 2 ^ 52 % 2 ^ 11 = 2047
  · rw [if_pos (special.mpr h), if_pos h]
    by_cases h' : b.toNat % 2 ^ 52 = 0
    · rw [if_pos (nothing.mpr h'), if_pos h']
    · rw [if_neg (mt nothing.mp h'), if_neg h']
  rw [if_neg (mt special.mp h), if_neg h]
  by_cases h : b.toNat / 2 ^ 52 % 2 ^ 11 = 0
  · rw [if_pos (least.mpr h), if_pos h]
    by_cases h' : b.toNat % 2 ^ 52 = 0
    · rw [dif_pos (nothing.mpr h'), dif_pos h']
    · rw [dif_neg (mt nothing.mp h'), dif_neg h']
      simp only [mantissa, exponent, h]
      rfl
  · rw [if_neg (mt least.mp h), if_neg h]
    simp only [leading, exponent]
    rfl

theorem ofBits_eq (bits : ℕ) : Binary.ofBits bits =
    let exponent : ℕ := bits / 2 ^ 52 % 2 ^ 11
    let fraction : ℕ := bits % 2 ^ 52
    if exponent = 2047 then
      if fraction = 0 then .infinite (bits / 2 ^ 63 % 2 == 1) else .undefined
    else if exponent = 0 then .finite (bits / 2 ^ 63 % 2 == 1) fraction (-1074)
    else .finite (bits / 2 ^ 63 % 2 == 1) (2 ^ 52 + fraction) (exponent - 1075) := rfl

theorem unpackedValue?_unpack :
    unpackedValue? (UnpackedFloat.unpack .binary64 b) = (Binary.ofBits b.toNat).value? := by
  have value (negative : Bool) (significand : ℕ) (e : ℤ) :
      (((if negative then Sign.negative else .positive).apply significand : ℤ) : ℚ) * 2 ^ e =
        (if negative then -significand else significand : ℚ) * 2 ^ e := by
    cases negative <;> simp [Sign.apply]
  rw [unpack_eq, ofBits_eq]
  dsimp only
  split
  · split <;> rfl
  split
  · split
    · rename_i zero
      rw [zero]
      generalize (b.toNat / 2 ^ 63 % 2 == 1) = negative
      cases negative <;> simp [unpackedValue?, Binary.value?]
    · exact congrArg some (value _ _ _)
  · exact congrArg some (value _ _ _)

theorem isCanonical_unpack : IsCanonical (UnpackedFloat.unpack .binary64 b) := by
  have small : b.toNat % 2 ^ 52 < 2 ^ 52 := Nat.mod_lt _ (by decide)
  have exponent : b.toNat / 2 ^ 52 % 2 ^ 11 < 2 ^ 11 := Nat.mod_lt _ (by decide)
  rw [unpack_eq]
  dsimp only
  split
  · split <;> trivial
  split
  · split
    · trivial
    · exact ⟨by omega, le_refl _, by decide, .inr rfl⟩
  · exact ⟨by omega, by omega, by omega, .inl (Nat.le_add_right _ _)⟩

end

/-- The value of a number is that of its unpacked form. -/
theorem value?_eq (x : Float) : value? x = unpackedValue? x.toModel.unpack :=
  (unpackedValue?_unpack x.toBits.toBitVec).symm

theorem value?_zero : value? 0 = some 0 := by
  have zero : binary 0 = .finite false 0 (-1074) := rfl
  rw [value?, zero, Binary.value?]
  norm_num

/-! ## Comparisons -/

section

variable {m n : ℕ} {e f : ℤ} {a b : UnpackedFloat} {p q : ℚ}

theorem two_zpow_pos (e : ℤ) : (0 : ℚ) < 2 ^ e := zpow_pos (by norm_num) e

/-- Of two numbers apart the one with the lesser exponent is less. -/
theorem mul_zpow_lt_of_exponent_lt (h : IsCanonicalPair m e) (h' : IsCanonicalPair n f)
    (less : e < f) : (m : ℚ) * 2 ^ e < n * 2 ^ f := by
  have full : 2 ^ 52 ≤ n := h'.full.resolve_right fun least => by
    have := h.least
    omega
  have upper : (m : ℚ) < 2 ^ 53 := by exact_mod_cast h.lt
  have lower : (2 : ℚ) ^ 52 ≤ n := by exact_mod_cast full
  calc (m : ℚ) * 2 ^ e < 2 ^ 53 * 2 ^ e := mul_lt_mul_of_pos_right upper (two_zpow_pos e)
    _ = 2 ^ 52 * 2 ^ (e + 1) := by
      rw [zpow_add_one₀ two_ne_zero]
      ring
    _ ≤ 2 ^ 52 * 2 ^ f :=
      mul_le_mul_of_nonneg_left (zpow_le_zpow_right₀ one_le_two less) (by positivity)
    _ ≤ n * 2 ^ f := mul_le_mul_of_nonneg_right lower (two_zpow_pos f).le

/-- Significands and exponents are compared as the numbers that they stand for. -/
theorem compare_mul_zpow (h : IsCanonicalPair m e) (h' : IsCanonicalPair n f) :
    compare ((m : ℚ) * 2 ^ e) (n * 2 ^ f) = (compare e f).then (compare m n) := by
  obtain less | rfl | greater := lt_trichotomy e f
  · rw [compare_lt_iff_lt.mpr less, compare_lt_iff_lt.mpr (mul_zpow_lt_of_exponent_lt h h' less)]
    rfl
  · have scaled {m n : ℕ} (less : m < n) : (m : ℚ) * 2 ^ e < n * 2 ^ e :=
      mul_lt_mul_of_pos_right (by exact_mod_cast less) (two_zpow_pos e)
    rw [compare_eq_iff_eq.mpr (rfl : e = e)]
    obtain less | rfl | greater := lt_trichotomy m n
    · rw [compare_lt_iff_lt.mpr (scaled less), compare_lt_iff_lt.mpr less]
      rfl
    · rw [compare_eq_iff_eq.mpr rfl, compare_eq_iff_eq.mpr rfl]
      rfl
    · rw [compare_gt_iff_gt.mpr (scaled greater), compare_gt_iff_gt.mpr greater]
      rfl
  · rw [compare_gt_iff_gt.mpr greater, compare_gt_iff_gt.mpr (mul_zpow_lt_of_exponent_lt h' h greater)]
    rfl

theorem compare_neg_neg (p q : ℚ) : compare (-p) (-q) = (compare p q).swap := by
  obtain less | rfl | greater := lt_trichotomy p q
  · rw [compare_lt_iff_lt.mpr less, compare_gt_iff_gt.mpr (neg_lt_neg less)]
    rfl
  · rw [compare_eq_iff_eq.mpr rfl, compare_eq_iff_eq.mpr rfl]
    rfl
  · rw [compare_gt_iff_gt.mpr greater, compare_lt_iff_lt.mpr (neg_lt_neg greater)]
    rfl

theorem mul_zpow_pos (h : 0 < m) : (0 : ℚ) < m * 2 ^ e :=
  mul_pos (by exact_mod_cast h) (two_zpow_pos e)

theorem unpackedValue?_positive (h : 0 < m) :
    unpackedValue? (.finite .positive m e h) = some (m * 2 ^ e : ℚ) := by
  simp [unpackedValue?, Sign.apply]

theorem unpackedValue?_negative (h : 0 < m) :
    unpackedValue? (.finite .negative m e h) = some (-(m * 2 ^ e) : ℚ) := by
  simp [unpackedValue?, Sign.apply]

/-- Unpacked numbers are compared by their values. -/
theorem compare_eq (ca : IsCanonical a) (cb : IsCanonical b) (ha : unpackedValue? a = some p)
    (hb : unpackedValue? b = some q) : a.compare b = some (compare p q) := by
  cases a with
  | infinity => cases ha
  | notANumber => cases ha
  | zero s =>
    cases ha
    cases b with
    | infinity => cases hb
    | notANumber => cases hb
    | zero => cases hb; rfl
    | finite s n f hn =>
      cases s with
      | positive =>
        cases (unpackedValue?_positive hn).symm.trans hb
        exact congrArg some (compare_lt_iff_lt.mpr (mul_zpow_pos hn)).symm
      | negative =>
        cases (unpackedValue?_negative hn).symm.trans hb
        exact congrArg some (compare_gt_iff_gt.mpr (neg_neg_of_pos (mul_zpow_pos hn))).symm
  | finite s m e hm =>
    cases b with
    | infinity => cases hb
    | notANumber => cases hb
    | zero =>
      cases hb
      cases s with
      | positive =>
        cases (unpackedValue?_positive hm).symm.trans ha
        exact congrArg some (compare_gt_iff_gt.mpr (mul_zpow_pos hm)).symm
      | negative =>
        cases (unpackedValue?_negative hm).symm.trans ha
        exact congrArg some (compare_lt_iff_lt.mpr (neg_neg_of_pos (mul_zpow_pos hm))).symm
    | finite s' n f hn =>
      cases s with
      | positive =>
        cases (unpackedValue?_positive hm).symm.trans ha
        cases s' with
        | positive =>
          cases (unpackedValue?_positive hn).symm.trans hb
          exact congrArg some (compare_mul_zpow ca cb).symm
        | negative =>
          cases (unpackedValue?_negative hn).symm.trans hb
          exact congrArg some (compare_gt_iff_gt.mpr
            ((neg_neg_of_pos (mul_zpow_pos hn)).trans (mul_zpow_pos hm))).symm
      | negative =>
        cases (unpackedValue?_negative hm).symm.trans ha
        cases s' with
        | positive =>
          cases (unpackedValue?_positive hn).symm.trans hb
          exact congrArg some (compare_lt_iff_lt.mpr
            ((neg_neg_of_pos (mul_zpow_pos hm)).trans (mul_zpow_pos hn))).symm
        | negative =>
          cases (unpackedValue?_negative hn).symm.trans hb
          exact congrArg some
            ((compare_neg_neg _ _).trans (congrArg Ordering.swap (compare_mul_zpow ca cb))).symm

variable {x y : Float}

theorem compare_unpack (hx : value? x = some p) (hy : value? y = some q) :
    x.toModel.unpack.compare y.toModel.unpack = some (compare p q) :=
  compare_eq (isCanonical_unpack _) (isCanonical_unpack _) (value?_eq x ▸ hx) (value?_eq y ▸ hy)

/-- **Finite numbers are compared by their values.** -/
theorem lt_iff (hx : value? x = some p) (hy : value? y = some q) : x < y ↔ p < q := by
  have compared : Float.lt x y = (some (compare p q) == some .lt) := by
    rw [← compare_unpack hx hy]
    exact Bool.decide_eq_true
  change Float.lt x y = true ↔ _
  rw [compared, beq_iff_eq, Option.some.injEq, compare_lt_iff_lt]

theorem le_iff (hx : value? x = some p) (hy : value? y = some q) : x ≤ y ↔ p ≤ q := by
  have compared : Float.le x y = (some (compare p q)).any (·.isLE) := by
    rw [← compare_unpack hx hy]
    exact Bool.decide_eq_true
  change Float.le x y = true ↔ _
  rw [compared, Option.any_some, ← compare_le_iff_le]
  cases compare p q <;> decide

theorem beq_iff (hx : value? x = some p) (hy : value? y = some q) : (x == y) = true ↔ p = q := by
  have compared : (x == y) = (some (compare p q) == some .eq) := by
    rw [← compare_unpack hx hy]
    rfl
  rw [compared, beq_iff_eq, Option.some.injEq, compare_eq_iff_eq]

end

/-! ## Rounding -/

section

variable {c m : ℕ} {e t : ℤ}

/-- What is shifted out of a significand that ends in zeros is nothing. -/
theorem shiftRight_mul_two_pow (c k : ℕ) :
    (⟨c * 2 ^ k, false, false⟩ : ExtendedMantissa) >>> k = ⟨c, false, false⟩ := by
  induction k generalizing c with
  | zero => exact congrArg (ExtendedMantissa.mk · false false) (Nat.mul_one c)
  | succ k ih =>
    have split : c * 2 ^ (k + 1) = c * 2 * 2 ^ k := by ring
    rw [split]
    refine (congrArg ExtendedMantissa.shiftRightOne (ih (c * 2))).trans ?_
    simp [ExtendedMantissa.shiftRightOne]

/-- Zeros at the end of a significand count as much as the exponent. -/
theorem totalExponent_mul_two_pow (hm : m ≠ 0) (k : ℕ) (e : ℤ) :
    totalExponent (m * 2 ^ k) e = totalExponent m (e + k) := by
  induction k generalizing e with
  | zero => simp
  | succ k ih =>
    have split : m * 2 ^ (k + 1) = 2 * (m * 2 ^ k) := by ring
    have earlier := ih (e + 1)
    rw [totalExponent] at earlier ⊢
    rw [split, Nat.log2_two_mul (mul_ne_zero hm (by positivity))]
    push_cast at earlier ⊢
    rw [show e + ((k : ℤ) + 1) = e + 1 + k by ring, ← earlier]
    ring

theorem log2_of_full (hc : 2 ^ 52 ≤ c ∧ c < 2 ^ 53) : c.log2 = 52 := by
  have hne : c ≠ 0 := by omega
  have lower : ¬ c.log2 < 52 := fun h => Nat.not_lt_of_le hc.1 ((Nat.log2_lt hne).mp h)
  have upper : c.log2 < 53 := (Nat.log2_lt hne).mpr hc.2
  omega

/-- A significand of 53 bits is at home at its own exponent. -/
theorem targetExponent_of_full (hc : 2 ^ 52 ≤ c ∧ c < 2 ^ 53) (ht : -1074 ≤ t) :
    Format.binary64.targetExponent (totalExponent c t) = t := by
  rw [Format.targetExponent, totalExponent, log2_of_full hc]
  have bits : Format.binary64.mantissaBits = 53 := rfl
  have least : Format.binary64.minExponent = -1074 := rfl
  rw [bits, least]
  omega

theorem shiftToTargetExponent_exact (hc : 2 ^ 52 ≤ c ∧ c < 2 ^ 53) (ht : -1074 ≤ t) (k : ℕ) :
    shiftToTargetExponent .binary64 (c * 2 ^ k) (t - k) .exact = (⟨c, false, false⟩, t) := by
  have total : totalExponent (c * 2 ^ k) (t - k) = totalExponent c t := by
    rw [totalExponent_mul_two_pow (by omega), sub_add_cancel]
  have shift : (t - (t - (k : ℤ))).toNat = k := by omega
  rw [shiftToTargetExponent, total, targetExponent_of_full hc ht, shiftToExponent]
  rw [shift, sub_add_cancel]
  exact congrArg (·, t) (shiftRight_mul_two_pow c k)

theorem roundWithAccuracy_exact (hc : 2 ^ 52 ≤ c ∧ c < 2 ^ 53) (ht : -1074 ≤ t) (s : Sign) (k : ℕ) :
    roundWithAccuracy .binary64 s (c * 2 ^ k) (t - k) .exact = .finite s c t (by omega) := by
  have again := shiftToTargetExponent_exact hc ht 0
  rw [pow_zero, mul_one, Nat.cast_zero, sub_zero] at again
  have rounded : (⟨c, false, false⟩ : ExtendedMantissa).roundedMantissa = c := rfl
  rw [roundWithAccuracy, shiftToTargetExponent_exact hc ht]
  dsimp only
  rw [rounded, again]
  have nonzero : c ≠ 0 := by omega
  exact dif_neg nonzero

theorem eq_mul_two_pow {m c k : ℕ} {e : ℤ} (same : (m : ℚ) * 2 ^ e = c * 2 ^ (e + k)) :
    m = c * 2 ^ k := by
  rw [zpow_add₀ two_ne_zero, zpow_natCast, mul_comm ((2 : ℚ) ^ e), ← mul_assoc] at same
  exact_mod_cast mul_right_cancel₀ (two_zpow_pos e).ne' same

/-- **A number that can be written with 53 bits is rounded to itself.** -/
theorem round_exact (hc : 2 ^ 52 ≤ c ∧ c < 2 ^ 53) (ht : -1074 ≤ t) (s : Sign)
    (same : (m : ℚ) * 2 ^ e = c * 2 ^ t) :
    UnpackedFloat.round .binary64 s m e = .finite s c t (by omega) := by
  obtain le | le := le_total e t
  · obtain ⟨k, rfl⟩ := Int.le.dest le
    obtain rfl := eq_mul_two_pow same
    have total : totalExponent (c * 2 ^ k) e = totalExponent c (e + k) :=
      totalExponent_mul_two_pow (by omega) k e
    have shift : (e - (e + (k : ℤ))).toNat = 0 := by omega
    have rounded := roundWithAccuracy_exact hc ht s k
    rw [add_sub_cancel_right] at rounded
    rw [UnpackedFloat.round, total, targetExponent_of_full hc ht, decreaseExponent, shift]
    rw [Nat.shiftLeft_zero, Nat.cast_zero, sub_zero]
    exact rounded
  · obtain ⟨k, rfl⟩ := Int.le.dest le
    obtain rfl := eq_mul_two_pow same.symm
    have hm : m ≠ 0 := by
      rintro rfl
      omega
    have total : totalExponent m (t + k) = totalExponent (m * 2 ^ k) t :=
      (totalExponent_mul_two_pow hm k t).symm
    have shift : (t + (k : ℤ) - t).toNat = k := by omega
    have rounded := roundWithAccuracy_exact hc ht s 0
    rw [pow_zero, mul_one, Nat.cast_zero, sub_zero] at rounded
    rw [UnpackedFloat.round, total, targetExponent_of_full hc ht, decreaseExponent, shift]
    rw [Nat.shiftLeft_eq, add_sub_cancel_right]
    exact rounded

end

/-! ## Packing -/

section

variable {s : Sign} {c : ℕ} {t : ℤ} {biased : ℕ}

theorem pack_of_full (hc : 2 ^ 52 ≤ c ∧ c < 2 ^ 53) (range : 1 ≤ biased ∧ biased ≤ 2046) :
    UnpackedFloat.pack .binary64 (.finite s c (biased - 1075) (by omega)) =
      packComponents .binary64 s (BitVec.ofNat 11 biased) (BitVec.ofNat 52 c) := by
  have bias : (Format.binary64.exponentBias : ℤ) = 1023 := rfl
  have exponent : ((biased : ℤ) - 1075 + 1023 + (52 : ℕ)).toNat = biased := by omega
  have bound : ¬ 2 ^ 11 ≤ biased + 1 := by omega
  rw [UnpackedFloat.pack, bias, log2_of_full hc]
  dsimp only
  rw [exponent, if_neg bound]
  rfl

theorem unpack_of_full {b : BitVec 64} (range : 1 ≤ biased ∧ biased ≤ 2046) (hc : 2 ^ 52 ≤ c)
    (sign : Sign.ofBitVec (@unpackSign .binary64 b) = s)
    (exponent : (@unpackExponent .binary64 b).toNat = biased)
    (mantissa : 2 ^ 52 + (@unpackMantissa .binary64 b).toNat = c) :
    UnpackedFloat.unpack .binary64 b = .finite s c (biased - 1075) (by omega) := by
  rw [toNat_unpackExponent] at exponent
  rw [toNat_unpackMantissa] at mantissa
  rw [ofBitVec_unpackSign] at sign
  rw [unpack_eq]
  dsimp only
  rw [if_neg (by omega), if_neg (by omega)]
  simp only [exponent, mantissa, sign]

/-- A number of 53 bits is unpacked as it was packed. -/
theorem unpack_pack (hc : 2 ^ 52 ≤ c ∧ c < 2 ^ 53) (ht : -1074 ≤ t) (ht' : t ≤ 971) :
    UnpackedFloat.unpack .binary64 (UnpackedFloat.pack .binary64 (.finite s c t (by omega))) =
      .finite s c t (by omega) := by
  obtain ⟨biased, rfl⟩ : ∃ biased : ℕ, t = biased - 1075 := ⟨(t + 1075).toNat, by omega⟩
  have range : 1 ≤ biased ∧ biased ≤ 2046 := by omega
  rw [pack_of_full hc range]
  refine unpack_of_full range hc.1 ?_ ?_ ?_
  · rw [unpackSign_packComponents, Sign.ofBitVec_toBitVec]
  · rw [unpackExponent_packComponents]
    change biased % 2 ^ 11 = biased
    omega
  · rw [unpackMantissa_packComponents]
    change 2 ^ 52 + c % 2 ^ 52 = c
    omega

theorem pack_of_least (pos : 0 < c) (less : c < 2 ^ 52) :
    UnpackedFloat.pack .binary64 (.finite s c (-1074) pos) =
      packComponents .binary64 s 0 (BitVec.ofNat 52 c) := by
  have log : c.log2 + 1 ≠ 53 := fun full => by
    have := (Nat.log2_lt pos.ne').mpr less
    omega
  rw [UnpackedFloat.pack]
  exact (if_neg (by decide)).trans (if_neg log)

/-- So is one of fewer bits with the least exponent. -/
theorem unpack_pack_of_least (pos : 0 < c) (less : c < 2 ^ 52) :
    UnpackedFloat.unpack .binary64 (UnpackedFloat.pack .binary64 (.finite s c (-1074) pos)) =
      .finite s c (-1074) pos := by
  rw [pack_of_least pos less]
  generalize packed : packComponents .binary64 s 0 (BitVec.ofNat 52 c) = b
  have sign := ofBitVec_unpackSign b
  have exponent := toNat_unpackExponent b
  have mantissa := toNat_unpackMantissa b
  rw [← packed, unpackSign_packComponents, Sign.ofBitVec_toBitVec, packed] at sign
  rw [← packed, unpackExponent_packComponents, packed] at exponent
  rw [← packed, unpackMantissa_packComponents, packed] at mantissa
  have whole : c = b.toNat % 2 ^ 52 := (Nat.mod_eq_of_lt less).symm.trans mantissa
  have zero : b.toNat / 2 ^ 52 % 2 ^ 11 = 0 := exponent.symm
  rw [unpack_eq]
  dsimp only
  rw [if_neg (by omega), if_pos zero, dif_neg (by omega)]
  simp only [← sign, ← whole]

end

/-- Packing an unpacked number loses nothing. -/
def Packs (u : UnpackedFloat) : Prop :=
  UnpackedFloat.unpack .binary64 (UnpackedFloat.pack .binary64 u) = u

theorem packs_zero (s : Sign) : Packs (.zero s) := by
  cases s <;> rfl

/-- What comes out of 64 bits goes back into them. -/
theorem IsCanonical.packs {u : UnpackedFloat} (canonical : IsCanonical u) : Packs u := by
  cases u with
  | infinity s => cases s <;> rfl
  | notANumber => rfl
  | zero s => exact packs_zero s
  | finite s m e pos =>
    obtain ⟨lt, least, greatest, full⟩ := canonical
    obtain full | less := le_or_gt (2 ^ 52) m
    · exact unpack_pack ⟨full, lt⟩ least greatest
    · obtain rfl := full.resolve_left (Nat.not_le.mpr less)
      exact unpack_pack_of_least pos less

/-! ## Sums -/

section

variable {a b : UnpackedFloat} {p q : ℚ} {n : ℤ}

/-- An integer of magnitude at most `2 ^ 53` can be written with 53 bits. -/
theorem exists_full {n : ℕ} (pos : 0 < n) (le : n ≤ 2 ^ 53) : ∃ (c : ℕ) (t : ℤ),
    (2 ^ 52 ≤ c ∧ c < 2 ^ 53) ∧ -1074 ≤ t ∧ t ≤ 971 ∧ (n : ℚ) = c * 2 ^ t := by
  obtain rfl | less := eq_or_lt_of_le le
  · exact ⟨2 ^ 52, 1, by decide, by decide, by decide, by norm_num⟩
  · have lower : 2 ^ n.log2 ≤ n := Nat.log2_self_le pos.ne'
    have upper : n < 2 ^ (n.log2 + 1) := Nat.lt_log2_self
    have log : n.log2 ≤ 52 := Nat.le_of_lt_succ ((Nat.log2_lt pos.ne').mpr less)
    obtain ⟨k, hk⟩ := Nat.exists_eq_add_of_le log
    refine ⟨n * 2 ^ k, -k, ⟨?_, ?_⟩, by omega, by omega, ?_⟩
    · rw [hk, Nat.pow_add]
      exact Nat.mul_le_mul_right _ lower
    · have split : 2 ^ 53 = 2 ^ (n.log2 + 1) * 2 ^ k := by
        rw [← Nat.pow_add]
        congr 1
        omega
      rw [split]
      exact Nat.mul_lt_mul_of_pos_right upper (by positivity)
    · rw [zpow_neg, zpow_natCast]
      push_cast
      rw [mul_assoc, mul_inv_cancel₀ (by positivity), mul_one]

/-- A number of 53 bits is written so in one way only. -/
theorem eq_of_mul_zpow_eq {m c : ℕ} {e t : ℤ} (h : IsCanonicalPair m e) (h' : IsCanonicalPair c t)
    (same : (m : ℚ) * 2 ^ e = c * 2 ^ t) : m = c ∧ e = t := by
  have compared := compare_mul_zpow h h'
  rw [compare_eq_iff_eq.mpr same, eq_comm, Ordering.then_eq_eq, compare_eq_iff_eq,
    compare_eq_iff_eq] at compared
  exact ⟨compared.2, compared.1⟩

theorem round_integer {m : ℕ} {e : ℤ} {n : ℕ} (s : Sign) (pos : 0 < n) (le : n ≤ 2 ^ 53)
    (same : (m : ℚ) * 2 ^ e = n) :
    unpackedValue? (UnpackedFloat.round .binary64 s m e) = some (s.apply n : ℚ) ∧
      Packs (UnpackedFloat.round .binary64 s m e) := by
  obtain ⟨c, t, hc, least, greatest, written⟩ := exists_full pos le
  rw [round_exact hc least s (same.trans written)]
  refine ⟨?_, unpack_pack hc least greatest⟩
  cases s with
  | positive =>
    rw [unpackedValue?_positive, ← written]
    simp [Sign.apply]
  | negative =>
    rw [unpackedValue?_negative, ← written]
    simp [Sign.apply]

theorem natAbs_of_neg (h : n < 0) : (n.natAbs : ℚ) = -n := by
  rw [← Int.cast_natCast, Int.ofNat_natAbs_of_nonpos h.le, Int.cast_neg]

theorem natAbs_of_pos (h : 0 < n) : (n.natAbs : ℚ) = n := by
  rw [← Int.cast_natCast, Int.natAbs_of_nonneg h.le]

/-- An integer is normalized to itself. -/
theorem normalize_integer {z e : ℤ} (le : n.natAbs ≤ 2 ^ 53) (same : (z : ℚ) * 2 ^ e = n) :
    unpackedValue? (UnpackedFloat.normalize .binary64 z e .positive) = some (n : ℚ) ∧
      Packs (UnpackedFloat.normalize .binary64 z e .positive) := by
  have scale := two_zpow_pos e
  rw [UnpackedFloat.normalize]
  obtain neg | rfl | pos := lt_trichotomy z 0
  · rw [compare_lt_iff_lt.mpr neg]
    have negative : n < 0 := by
      have : (n : ℚ) < 0 := same ▸ mul_neg_of_neg_of_pos (by exact_mod_cast neg) scale
      exact_mod_cast this
    have magnitude : ((-z).toNat : ℚ) * 2 ^ e = n.natAbs := by
      have hz : ((-z).toNat : ℚ) = -z := by
        exact_mod_cast Int.toNat_of_nonneg (show 0 ≤ -z by omega)
      rw [hz, natAbs_of_neg negative, ← same, neg_mul]
    have rounded := round_integer .negative (by omega) le magnitude
    have back : Sign.negative.apply n.natAbs = n := by
      rw [Sign.apply]
      omega
    rwa [back] at rounded
  · rw [compare_eq_iff_eq.mpr rfl]
    rw [Int.cast_zero, zero_mul] at same
    exact ⟨congrArg some same, packs_zero _⟩
  · rw [compare_gt_iff_gt.mpr pos]
    have positive : 0 < n := by
      have : (0 : ℚ) < n := same ▸ mul_pos (by exact_mod_cast pos) scale
      exact_mod_cast this
    have magnitude : (z.toNat : ℚ) * 2 ^ e = n.natAbs := by
      have hz : (z.toNat : ℚ) = z := by exact_mod_cast Int.toNat_of_nonneg pos.le
      rw [hz, natAbs_of_pos positive, same]
    have rounded := round_integer .positive (by omega) le magnitude
    have back : Sign.positive.apply n.natAbs = n := by
      rw [Sign.apply]
      omega
    rwa [back] at rounded

/-- An integer of magnitude at most `2 ^ 53` is unpacked with 53 bits. -/
theorem full_of_integer {s : Sign} {m : ℕ} {e : ℤ} {hm : 0 < m} (canonical : IsCanonicalPair m e)
    (value : unpackedValue? (.finite s m e hm) = some (n : ℚ)) (le : n.natAbs ≤ 2 ^ 53) :
    2 ^ 52 ≤ m := by
  have magnitude : (m : ℚ) * 2 ^ e = n.natAbs := by
    have pos := mul_zpow_pos (e := e) hm
    cases s with
    | positive =>
      have same := Option.some.inj ((unpackedValue?_positive hm).symm.trans value)
      rw [same] at pos ⊢
      exact (natAbs_of_pos (by exact_mod_cast pos)).symm
    | negative =>
      have same := Option.some.inj ((unpackedValue?_negative hm).symm.trans value)
      rw [← neg_neg (_ * _), same] at pos ⊢
      exact (natAbs_of_neg (by exact_mod_cast neg_pos.mp pos)).symm
  have positive : 0 < n.natAbs := by
    have := mul_zpow_pos (e := e) hm
    rw [magnitude] at this
    exact_mod_cast this
  obtain ⟨c, t, hc, least, greatest, written⟩ := exists_full positive le
  obtain ⟨rfl, rfl⟩ := eq_of_mul_zpow_eq canonical ⟨hc.2, least, greatest, .inl hc.1⟩
    (magnitude.trans written)
  exact hc.1

/-- A significand is shifted to a lesser exponent without loss. -/
theorem apply_shiftLeft (s : Sign) {m : ℕ} {e f : ℤ} (le : e ≤ f) :
    ((s.apply (m <<< (f - e).toNat : ℕ) : ℤ) : ℚ) * 2 ^ e = s.apply m * 2 ^ f := by
  obtain ⟨k, rfl⟩ := Int.le.dest le
  have shift : (e + (k : ℤ) - e).toNat = k := by omega
  rw [shift, Nat.shiftLeft_eq, zpow_add₀ two_ne_zero, zpow_natCast]
  cases s <;> simp only [Sign.apply] <;> push_cast <;> ring

theorem add_integer (ca : IsCanonical a) (cb : IsCanonical b) (ha : unpackedValue? a = some p)
    (hb : unpackedValue? b = some q) (sum : p + q = n) (le : n.natAbs ≤ 2 ^ 53) :
    unpackedValue? (UnpackedFloat.add .binary64 a b) = some (n : ℚ) ∧
      Packs (UnpackedFloat.add .binary64 a b) := by
  cases a with
  | infinity => cases ha
  | notANumber => cases ha
  | zero s =>
    cases ha
    rw [zero_add] at sum
    cases b with
    | infinity => cases hb
    | notANumber => cases hb
    | zero s' =>
      cases hb
      rw [UnpackedFloat.add]
      split
      · exact ⟨congrArg some sum, packs_zero _⟩
      · exact ⟨congrArg some sum, packs_zero _⟩
    | finite => exact ⟨sum ▸ hb, cb.packs⟩
  | finite s m e hm =>
    cases b with
    | infinity => cases hb
    | notANumber => cases hb
    | zero =>
      cases hb
      rw [add_zero] at sum
      exact ⟨sum ▸ ha, ca.packs⟩
    | finite s' m' e' hm' =>
      refine normalize_integer le ?_
      rw [Int.cast_add, add_mul, apply_shiftLeft s (min_le_left e e'),
        apply_shiftLeft s' (min_le_right e e'), ← sum]
      exact congrArg₂ (· + ·) (Option.some.inj ha) (Option.some.inj hb)

end

/-- **Sums are exact** where the sum of the values is an integer of magnitude at most `2 ^ 53`. -/
theorem value?_add {x y : Float} {p q : ℚ} {n : ℤ} (hx : value? x = some p) (hy : value? y = some q)
    (sum : p + q = n) (le : n.natAbs ≤ 2 ^ 53) : value? (x + y) = some (n : ℚ) := by
  obtain ⟨value, packs⟩ := add_integer (isCanonical_unpack _) (isCanonical_unpack _)
    (value?_eq x ▸ hx) (value?_eq y ▸ hy) sum le
  rw [value?_eq]
  exact (congrArg unpackedValue? packs).trans value

end PageScript.Number
