import PageScript.Proofs.Number.Decimal
import PageScript.Proofs.Number.Nearest

/-!
# Proofs/Number/Overflow — numerals that are too large

A value is rounded to infinity from `limit` on, half way between the greatest number and the next power
of two; below it the result is finite (`isSized_toFloat`).  The significand is cut to 53 bits, and only
next to the limit does it matter whether rounding carries over into one bit more
(`exponent_of_middle`).  Products and quotients are rounded that way, and so is scientific notation,
which is one or the other.
-/

namespace PageScript.Number

open Float.Model Float.Model.UnpackedFloat

/-! ## Shifting -/

section

variable (em : ExtendedMantissa)

theorem mantissa_shiftRight (k : ℕ) : (em >>> k).mantissa = em.mantissa / 2 ^ k := by
  induction k with
  | zero => exact (Nat.div_one _).symm
  | succ k ih =>
    have halved : (em >>> (k + 1)).mantissa = (em >>> k).mantissa / 2 := rfl
    rw [halved, ih, Nat.div_div_eq_div_mul, Nat.pow_succ]

theorem roundBit_shiftRight_succ (k : ℕ) :
    (em >>> (k + 1)).roundBit = (em.mantissa / 2 ^ k % 2 != 0) := by
  rw [← mantissa_shiftRight]
  rfl

/-- Rounding adds at most one. -/
theorem roundedMantissa_le :
    em.mantissa ≤ em.roundedMantissa ∧ em.roundedMantissa ≤ em.mantissa + 1 := by
  obtain ⟨m, round, sticky⟩ := em
  cases round <;> cases sticky <;>
    simp only [ExtendedMantissa.roundedMantissa, ExtendedMantissa.accuracy,
      Accuracy.roundToNearestEven] <;> omega

/-- An odd significand is rounded up from half way on. -/
theorem roundedMantissa_of_odd (odd : em.mantissa % 2 = 1) :
    em.roundedMantissa = if em.roundBit then em.mantissa + 1 else em.mantissa := by
  obtain ⟨m, round, sticky⟩ := em
  have odd : m % 2 = 1 := odd
  cases round <;> cases sticky <;>
    simp [ExtendedMantissa.roundedMantissa, ExtendedMantissa.accuracy, Accuracy.roundToNearestEven, odd]

theorem mantissa_ofMantissaAndAccuracy (m : ℕ) (acc : Accuracy) :
    (ExtendedMantissa.ofMantissaAndAccuracy m acc).mantissa = m := by
  obtain - | order := acc
  · rfl
  · cases order <;> rfl

end

/-- How many bits of a significand are dropped. -/
def dropped (m : ℕ) (e : ℤ) : ℕ := (max (m.log2 + 1 + e - 53) (-1074) - e).toNat

theorem shiftToTargetExponent_eq (m : ℕ) (e : ℤ) (acc : Accuracy) :
    shiftToTargetExponent .binary64 m e acc =
      (ExtendedMantissa.ofMantissaAndAccuracy m acc >>> dropped m e, e + dropped m e) := rfl

/-- How a significand is rounded: some bits are dropped, and one more if rounding carries over. -/
theorem exists_roundWithAccuracy (s : Sign) (m : ℕ) (e : ℤ) (acc : Accuracy) : ∃ r : ℕ,
    m / 2 ^ dropped m e ≤ r ∧ r ≤ m / 2 ^ dropped m e + 1 ∧
    (∀ k, dropped m e = k + 1 → m / 2 ^ (k + 1) % 2 = 1 → r = m / 2 ^ (k + 1) + m / 2 ^ k % 2) ∧
    roundWithAccuracy .binary64 s m e acc =
      if h : r / 2 ^ dropped r (e + dropped m e) = 0 then .zero s
      else .finite s (r / 2 ^ dropped r (e + dropped m e))
        (e + dropped m e + dropped r (e + dropped m e)) (Nat.pos_of_ne_zero h) := by
  have kept (k : ℕ) : (ExtendedMantissa.ofMantissaAndAccuracy m acc >>> k).mantissa = m / 2 ^ k := by
    rw [mantissa_shiftRight, mantissa_ofMantissaAndAccuracy]
  refine ⟨(ExtendedMantissa.ofMantissaAndAccuracy m acc >>> dropped m e).roundedMantissa,
    kept _ ▸ (roundedMantissa_le _).1, kept _ ▸ (roundedMantissa_le _).2, fun k hk odd => ?_, ?_⟩
  · rw [hk, roundedMantissa_of_odd _ ((congrArg (· % 2) (kept _)).trans odd), roundBit_shiftRight_succ,
      mantissa_ofMantissaAndAccuracy, kept]
    obtain even | odd := Nat.mod_two_eq_zero_or_one (m / 2 ^ k)
    · rw [even]
      rfl
    · rw [odd]
      rfl
  · rw [roundWithAccuracy, shiftToTargetExponent_eq]
    dsimp only
    rw [shiftToTargetExponent_eq]
    simp only [mantissa_shiftRight, mantissa_ofMantissaAndAccuracy]

/-! ## The greatest number -/

/-- The least value that is rounded to infinity, half way between the greatest number,
`(2 ^ 53 - 1) * 2 ^ 971`, and the next power of two. -/
def limit : ℚ := (2 ^ 54 - 1) * 2 ^ 970

theorem limit_pos : 0 < limit := by
  rw [limit]
  positivity

theorem limit_eq_mul_zpow {e : ℤ} (he : e ≤ 970) :
    limit = ((2 ^ 54 - 1) * 2 ^ (970 - e).toNat : ℕ) * (2 : ℚ) ^ e := by
  obtain ⟨k, hk⟩ := Int.le.dest he
  have shift : (970 - e).toNat = k := by omega
  have power : (2 : ℚ) ^ 970 = 2 ^ e * 2 ^ k := by
    rw [← zpow_ofNat, ← hk, zpow_add₀ two_ne_zero, zpow_natCast]
  rw [limit, power, shift]
  push_cast
  ring

/-- A quotient reaches the limit if its whole part does. -/
theorem limit_le_div_iff {a b : ℕ} {e : ℤ} (he : e ≤ 970) (pos : 0 < b) :
    limit ≤ (a / b : ℚ) * 2 ^ e ↔ (2 ^ 54 - 1) * 2 ^ (970 - e).toNat ≤ a / b := by
  have scale : (0 : ℚ) < b := by exact_mod_cast pos
  rw [limit_eq_mul_zpow he, mul_le_mul_iff_left₀ (two_zpow_pos _), le_div_iff₀ scale,
    Nat.le_div_iff_mul_le pos]
  exact_mod_cast Iff.rfl

/-- What a value that is not negative is rounded to, as far as its size goes: packing turns exponents of
972 and more into infinity. -/
inductive IsRounded (v : ℚ) : UnpackedFloat → Prop
  | zero (small : v < limit) : IsRounded v (.zero .positive)
  | infinity (large : limit ≤ v) : IsRounded v (.infinity .positive)
  | finite {m e h} (size : 972 ≤ e ↔ limit ≤ v) : IsRounded v (.finite .positive m e h)

theorem div_two_pow_lt {m j k : ℕ} (h : m.log2 < j + k) : m / 2 ^ k < 2 ^ j := by
  rw [Nat.div_lt_iff_lt_mul (Nat.two_pow_pos k), ← Nat.pow_add]
  exact Nat.lt_log2_self.trans_le (Nat.pow_le_pow_right two_pos h)

theorem le_div_two_pow {m j k : ℕ} (pos : m ≠ 0) (h : j + k ≤ m.log2) : 2 ^ j ≤ m / 2 ^ k := by
  rw [Nat.le_div_iff_mul_le (Nat.two_pow_pos k), ← Nat.pow_add]
  exact (Nat.pow_le_pow_right two_pos h).trans (Nat.log2_self_le pos)

section

variable {m r : ℕ} {e : ℤ}

theorem dropped_eq (m : ℕ) (e : ℤ) :
    dropped m e = (max ((m.log2 : ℤ) + 1 + e - 53) (-1074) - e).toNat := rfl

/-- Far below the limit the exponent stays small, also if rounding carries over. -/
theorem exponent_of_small (he : e ≤ 970) (small : m.log2 + e ≤ 1022)
    (upper : r ≤ m / 2 ^ dropped m e + 1) :
    e + dropped m e + dropped r (e + dropped m e) ≤ 971 ∧ m < (2 ^ 54 - 1) * 2 ^ (970 - e).toNat := by
  have first := dropped_eq m e
  have second := dropped_eq r (e + dropped m e)
  have few : m / 2 ^ dropped m e < 2 ^ 53 := div_two_pow_lt (by omega)
  have quotient : m / 2 ^ (970 - e).toNat < 2 ^ 53 := div_two_pow_lt (by omega)
  have log : r.log2 ≤ 53 := by
    obtain rfl | nonzero := eq_or_ne r 0
    · exact Nat.zero_le _
    · exact Nat.le_of_lt_succ ((Nat.log2_lt nonzero).mpr (by omega))
  rw [Nat.div_lt_iff_lt_mul (Nat.two_pow_pos _)] at quotient
  exact ⟨by omega, quotient.trans_le (Nat.mul_le_mul_right _ (by decide))⟩

theorem log2_eq {k : ℕ} (lower : 2 ^ k ≤ r) (upper : r < 2 ^ (k + 1)) : r.log2 = k := by
  have nonzero : r ≠ 0 := (Nat.two_pow_pos k |>.trans_le lower).ne'
  exact (Nat.log2_eq_iff nonzero).mpr ⟨lower, upper⟩

/-- Next to the limit the exponent grows only if rounding carries over, which it does from the limit
on. -/
theorem exponent_of_middle (he : e ≤ 970) (middle : m.log2 + e = 1023)
    (lower : m / 2 ^ dropped m e ≤ r) (upper : r ≤ m / 2 ^ dropped m e + 1)
    (carry : ∀ k, dropped m e = k + 1 → m / 2 ^ (k + 1) % 2 = 1 → r = m / 2 ^ (k + 1) + m / 2 ^ k % 2) :
    (972 ≤ e + dropped m e + dropped r (e + dropped m e) ↔ (2 ^ 54 - 1) * 2 ^ (970 - e).toNat ≤ m) ∧
      r / 2 ^ dropped r (e + dropped m e) ≠ 0 := by
  obtain ⟨k, hk⟩ := Int.le.dest he
  have first : dropped m e = k + 1 := by
    have := dropped_eq m e
    omega
  have second := dropped_eq r (e + dropped m e)
  have shift : (970 - e).toNat = k := by omega
  have nonzero : m ≠ 0 := by
    rintro rfl
    rw [Nat.log2_zero] at middle
    omega
  have full : 2 ^ 53 ≤ m / 2 ^ k := le_div_two_pow nonzero (by omega)
  have less : m / 2 ^ k < 2 ^ 54 := div_two_pow_lt (by omega)
  have halved : m / 2 ^ (k + 1) = m / 2 ^ k / 2 := by rw [Nat.pow_succ, Nat.div_div_eq_div_mul]
  have carry := carry k first
  rw [shift, ← Nat.le_div_iff_mul_le (Nat.two_pow_pos k)]
  rw [first, halved] at lower upper
  rw [halved] at carry
  rw [first] at second ⊢
  obtain top | below : 2 ^ 54 - 1 ≤ m / 2 ^ k ∨ m / 2 ^ k < 2 ^ 54 - 1 := le_or_gt _ _
  · have carried : r = 2 ^ 53 := by omega
    have log : r.log2 = 53 := carried ▸ Nat.log2_two_pow
    have one : dropped r (e + (k + 1 : ℕ)) = 1 := by omega
    rw [one, carried]
    exact ⟨iff_of_true (by omega) top, by decide⟩
  · have log : r.log2 = 52 := log2_eq (by omega) (by omega)
    have none : dropped r (e + (k + 1 : ℕ)) = 0 := by omega
    rw [none, Nat.pow_zero, Nat.div_one]
    exact ⟨iff_of_false (by omega) (Nat.not_le.mpr below), by omega⟩

/-- Beyond the limit the exponent is large. -/
theorem exponent_of_large (he : e ≤ 970) (large : 1024 ≤ m.log2 + e)
    (lower : m / 2 ^ dropped m e ≤ r) (upper : r ≤ m / 2 ^ dropped m e + 1) :
    972 ≤ e + dropped m e + dropped r (e + dropped m e) ∧ (2 ^ 54 - 1) * 2 ^ (970 - e).toNat ≤ m ∧
      r / 2 ^ dropped r (e + dropped m e) ≠ 0 := by
  have first := dropped_eq m e
  have second := dropped_eq r (e + dropped m e)
  have nonzero : m ≠ 0 := by
    rintro rfl
    rw [Nat.log2_zero] at large
    omega
  have full : 2 ^ 52 ≤ m / 2 ^ dropped m e := le_div_two_pow nonzero (by omega)
  have less : m / 2 ^ dropped m e < 2 ^ 53 := div_two_pow_lt (by omega)
  have many : 2 ^ 54 ≤ m / 2 ^ (970 - e).toNat := le_div_two_pow nonzero (by omega)
  have log : r.log2 ≤ 53 := Nat.le_of_lt_succ ((Nat.log2_lt (by omega)).mpr (by omega))
  rw [Nat.le_div_iff_mul_le (Nat.two_pow_pos _)] at many
  refine ⟨by omega, (Nat.mul_le_mul_right _ (by decide)).trans many, ?_⟩
  have kept : 2 ^ 0 ≤ r / 2 ^ dropped r (e + dropped m e) := by
    refine le_div_two_pow (by omega) ?_
    have := Nat.le_log2 (by omega : r ≠ 0) |>.mpr (full.trans lower)
    omega
  exact Nat.pos_iff_ne_zero.mp kept

/-- **A significand is rounded beyond the greatest number from the limit on.** -/
theorem isRounded_roundWithAccuracy {v : ℚ} (he : e ≤ 970)
    (hv : limit ≤ v ↔ (2 ^ 54 - 1) * 2 ^ (970 - e).toNat ≤ m) (acc : Accuracy) :
    IsRounded v (roundWithAccuracy .binary64 .positive m e acc) := by
  obtain ⟨r, lower, upper, carry, rounded⟩ := exists_roundWithAccuracy .positive m e acc
  obtain ⟨size, nonzero⟩ :
      (972 ≤ e + dropped m e + dropped r (e + dropped m e) ↔ (2 ^ 54 - 1) * 2 ^ (970 - e).toNat ≤ m) ∧
        ((2 ^ 54 - 1) * 2 ^ (970 - e).toNat ≤ m → r / 2 ^ dropped r (e + dropped m e) ≠ 0) := by
    obtain small | middle | large : m.log2 + e ≤ 1022 ∨ m.log2 + e = 1023 ∨ 1024 ≤ m.log2 + e := by omega
    · obtain ⟨exponent, below⟩ := exponent_of_small he small upper
      exact ⟨iff_of_false (by omega) (Nat.not_le.mpr below),
        fun top => absurd top (Nat.not_le.mpr below)⟩
    · obtain ⟨size, nonzero⟩ := exponent_of_middle he middle lower upper carry
      exact ⟨size, fun _ => nonzero⟩
    · obtain ⟨exponent, top, nonzero⟩ := exponent_of_large he large lower upper
      exact ⟨iff_of_true exponent top, fun _ => nonzero⟩
  rw [rounded]
  split
  case isTrue none => exact .zero (not_le.mp fun large => nonzero (hv.mp large) none)
  case isFalse => exact .finite (size.trans hv.symm)

end

/-! ## Scientific notation -/

theorem limit_le_ten_pow : limit ≤ 10 ^ 310 :=
  calc limit ≤ 2 ^ 54 * 2 ^ 970 := mul_le_mul_of_nonneg_right (by norm_num) (by positivity)
    _ = 2 ^ 1024 := (pow_add 2 54 970).symm
    _ ≤ 2 ^ (205 * 5) := pow_le_pow_right₀ one_le_two (by decide)
    _ = (2 ^ 205) ^ 5 := pow_mul 2 205 5
    _ ≤ (10 ^ 62) ^ 5 := pow_le_pow_left₀ (by positivity) (by norm_num) 5
    _ = 10 ^ 310 := (pow_mul 10 62 5).symm

theorem two_pow_le_limit {k : ℕ} (le : k ≤ 970) : 2 ^ k ≤ limit :=
  calc (2 : ℚ) ^ k ≤ 2 ^ 970 := pow_le_pow_right₀ one_le_two le
    _ ≤ limit := le_mul_of_one_le_left (by positivity) (by norm_num)

theorem one_le_limit : 1 ≤ limit := pow_zero (2 : ℚ) ▸ two_pow_le_limit (Nat.zero_le _)

theorem isRounded_mul {m n : ℕ} {e f : ℤ} (range : e + f ≤ 970) (hm : 0 < m) (hn : 0 < n) :
    IsRounded (m * 2 ^ e * (n * 2 ^ f)) (UnpackedFloat.mul .binary64 (.finite .positive m e hm)
      (.finite .positive n f hn)) := by
  refine isRounded_roundWithAccuracy range ?_ _
  have same : (m * 2 ^ e * (n * 2 ^ f) : ℚ) = (m * n : ℕ) / (1 : ℕ) * 2 ^ (e + f) := by
    rw [zpow_add₀ two_ne_zero]
    push_cast
    ring
  rw [same, limit_le_div_iff range one_pos, Nat.div_one]

theorem isRounded_div {m n : ℕ} {e f : ℤ} (range : e - f ≤ 970) (hm : 0 < m) (hn : 0 < n) :
    IsRounded (m * 2 ^ e / (n * 2 ^ f)) (UnpackedFloat.div .binary64 (.finite .positive m e hm)
      (.finite .positive n f hn)) := by
  rw [UnpackedFloat.div, divCore]
  dsimp only
  generalize htarget : min (e - f) _ = target
  have le : target ≤ e - f := htarget ▸ min_le_left _ _
  refine isRounded_roundWithAccuracy (le.trans range) ?_ _
  have scaled : (m * 2 ^ e / (n * 2 ^ f) : ℚ) =
      ((m <<< (e - f - target).toNat : ℕ) / n : ℚ) * 2 ^ target := by
    obtain ⟨k, hk⟩ := Int.le.dest le
    have shift : (e - f - target).toNat = k := by omega
    obtain rfl : e = target + k + f := by omega
    have nonzero : (n : ℚ) ≠ 0 := by exact_mod_cast hn.ne'
    rw [shift, Nat.shiftLeft_eq, zpow_add₀ two_ne_zero, zpow_add₀ two_ne_zero, zpow_natCast]
    have power := (two_zpow_pos f).ne'
    push_cast
    field_simp
  rw [scaled, limit_le_div_iff (le.trans range) hn]

theorem isRounded_ofScientific {m : ℕ} (pos : 0 < m) (e : ℤ) :
    IsRounded (m * 10 ^ e) (UnpackedFloat.ofScientific .binary64 m e) := by
  have one_le : (1 : ℚ) ≤ m := by exact_mod_cast pos
  rw [UnpackedFloat.ofScientific, dif_neg pos.ne']
  split
  case isTrue large =>
    have exponent : 310 ≤ e := by
      change (2 : ℤ) ^ 11 < e at large
      omega
    refine .infinity (limit_le_ten_pow.trans ?_)
    calc (10 : ℚ) ^ 310 = 10 ^ (310 : ℤ) := (zpow_ofNat 10 310).symm
      _ ≤ 10 ^ e := zpow_le_zpow_right₀ (by norm_num) exponent
      _ ≤ m * 10 ^ e := le_mul_of_one_le_left (Decimal.ten_zpow_pos e).le one_le
  split
  case isTrue small =>
    have exponent : e ≤ -(m.log2 + 1 : ℕ) := by
      change e < -((2 : ℤ) ^ 11 + m.log2) at small
      omega
    refine .zero (lt_of_lt_of_le ?_ one_le_limit)
    have bound : (m : ℚ) < 10 ^ (m.log2 + 1) := by
      exact_mod_cast Nat.lt_log2_self.trans_le (Nat.pow_le_pow_left (by decide) _)
    calc (m : ℚ) * 10 ^ e ≤ m * 10 ^ (-(m.log2 + 1 : ℕ) : ℤ) :=
          mul_le_mul_of_nonneg_left (zpow_le_zpow_right₀ (by norm_num) exponent) (by positivity)
      _ = m / 10 ^ (m.log2 + 1) := by rw [zpow_neg, zpow_natCast, div_eq_mul_inv]
      _ < 1 := (div_lt_one (by positivity)).mpr bound
  split
  case isTrue nonneg =>
    obtain ⟨k, rfl⟩ := Int.eq_ofNat_of_zero_le nonneg
    have rounded := isRounded_mul (e := -53) (f := 0) (by decide)
      (Nat.shiftLeft_eq m 53 ▸ Nat.mul_pos pos (Nat.two_pow_pos 53) : 0 < m <<< 53)
      (Nat.pow_pos (n := k) (by decide : 0 < 10))
    have same : (m * 10 ^ (k : ℤ) : ℚ) =
        (m <<< 53 : ℕ) * 2 ^ (-53 : ℤ) * ((10 ^ k : ℕ) * 2 ^ (0 : ℤ)) := by
      rw [Nat.shiftLeft_eq, zpow_natCast]
      push_cast
      field_simp
      norm_num
    rw [same]
    exact rounded
  case isFalse neg =>
    obtain ⟨k, rfl⟩ : ∃ k : ℕ, e = -k := ⟨(-e).toNat, by omega⟩
    have rounded := isRounded_div (e := 0) (f := 0) (by decide) pos
      (Nat.pow_pos (n := k) (by decide : 0 < 10))
    rw [zpow_neg, zpow_natCast, ← div_eq_mul_inv]
    rw [zpow_zero, mul_one, mul_one, Nat.cast_pow] at rounded
    have back : (- -(k : ℤ)).toNat = k := by omega
    simp only [back]
    exact rounded

/-! ## Packing -/

/-- How a number reads that a value is rounded to. -/
inductive IsSized (v : ℚ) : Binary → Prop
  | infinite (large : limit ≤ v) : IsSized v (.infinite false)
  | finite {significand exponent} (small : v < limit) : IsSized v (.finite false significand exponent)

theorem ofBits_packComponents (exponent : BitVec 11) (fraction : BitVec 52) :
    Binary.ofBits (packComponents .binary64 .positive exponent fraction).toNat =
      if exponent.toNat = 2047 then
        if fraction.toNat = 0 then .infinite false else .undefined
      else if exponent.toNat = 0 then .finite false fraction.toNat (-1074)
      else .finite false (2 ^ 52 + fraction.toNat) (exponent.toNat - 1075) := by
  generalize packed : packComponents .binary64 .positive exponent fraction = b
  have sign := toNat_unpackSign b
  have high := toNat_unpackExponent b
  have low := toNat_unpackMantissa b
  rw [← packed, unpackSign_packComponents, packed] at sign
  rw [← packed, unpackExponent_packComponents, packed] at high
  rw [← packed, unpackMantissa_packComponents, packed] at low
  rw [ofBits_eq, ← sign, ← high, ← low]
  rfl

theorem isSized_pack {v : ℚ} {u : UnpackedFloat} (rounded : IsRounded v u) :
    IsSized v (binary (Float.ofModel (Float.Model.pack u))) := by
  change IsSized v (Binary.ofBits (UnpackedFloat.pack .binary64 u).toNat)
  cases rounded with
  | zero small => exact .finite small
  | infinity large => exact .infinite large
  | @finite m e pos size =>
    have bias : (Format.binary64.exponentBias : ℤ) = 1023 := rfl
    rw [UnpackedFloat.pack, bias]
    dsimp only
    generalize hbiased : (e + 1023 + (52 : ℕ)).toNat = biased
    split
    case isTrue high =>
      change 2 ^ 11 ≤ biased + 1 at high
      exact .infinite (size.mp (by omega))
    case isFalse low =>
      change ¬ 2 ^ 11 ≤ biased + 1 at low
      have small : v < limit := not_le.mp fun large => by
        have := size.mpr large
        omega
      split
      · rw [ofBits_packComponents]
        have field : (BitVec.ofNat 11 biased).toNat = biased := Nat.mod_eq_of_lt (by omega)
        rw [field, if_neg (by omega)]
        split <;> exact .finite small
      · rw [ofBits_packComponents]
        exact .finite small

/-! ## Numbers that are positive -/

/-- A number with a positive value is unpacked with a positive sign. -/
theorem unpack_of_pos {x : Float} {q : ℚ} (value : value? x = some q) (pos : 0 < q) :
    ∃ m e h, x.toModel.unpack = .finite .positive m e h ∧ m < 2 ^ 53 ∧ q = m * 2 ^ e := by
  rw [value?_eq] at value
  have canonical : IsCanonical x.toModel.unpack := isCanonical_unpack _
  generalize x.toModel.unpack = u at value canonical ⊢
  cases u with
  | infinity => cases value
  | notANumber => cases value
  | zero =>
    cases value
    exact absurd pos (lt_irrefl _)
  | finite s m e h =>
    have pair : IsCanonicalPair m e := canonical
    cases s with
    | positive =>
      rw [unpackedValue?_positive] at value
      exact ⟨m, e, h, rfl, pair.lt, (Option.some.inj value).symm⟩
    | negative =>
      rw [unpackedValue?_negative] at value
      rw [← Option.some.inj value] at pos
      exact absurd pos (not_lt.mpr (neg_nonpos.mpr (mul_zpow_pos h).le))

/-- Whether a number taken apart is a natural number. -/
def Binary.isNat (n : ℕ) : Binary → Bool
  | finite false significand (.ofNat e) => significand * 2 ^ e == n
  | finite false significand (.negSucc e) => significand == n * 2 ^ (e + 1)
  | _ => false

theorem Binary.value?_of_isNat {b : Binary} {n : ℕ} (h : b.isNat n = true) :
    b.value? = some (n : ℚ) := by
  unfold isNat at h
  split at h
  · rw [beq_iff_eq] at h
    rw [value?, ← h, if_neg Bool.false_ne_true]
    push_cast
    rfl
  · rename_i significand e
    rw [beq_iff_eq] at h
    rw [value?, h, if_neg Bool.false_ne_true, zpow_negSucc]
    push_cast
    rw [mul_assoc, mul_inv_cancel₀ (by positivity), mul_one]
  · cases h

theorem value?_powerOfTen {k : ℕ} (h : k < 23) :
    value? Float.exactlyRepresentablePowersOfTen[k] = some ((10 ^ k : ℕ) : ℚ) := by
  have table : ∀ k : Fin 23,
      (binary Float.exactlyRepresentablePowersOfTen[k]).isNat (10 ^ k.val) = true := by
    decide +kernel
  exact Binary.value?_of_isNat (table ⟨k, h⟩)

/-- The value of a number bounds its exponent. -/
theorem exponent_lt {m : ℕ} {e : ℤ} {k : ℕ} (pos : 0 < m) (h : (m : ℚ) * 2 ^ e < 2 ^ k) : e < k := by
  have one_le : (1 : ℚ) ≤ m := by exact_mod_cast pos
  have less : (2 : ℚ) ^ e < 2 ^ (k : ℤ) := by
    rw [zpow_natCast]
    exact (le_mul_of_one_le_left (two_zpow_pos e).le one_le).trans_lt h
  exact (zpow_lt_zpow_iff_right₀ one_lt_two).mp less

theorem lt_exponent {m : ℕ} {e : ℤ} (lt : m < 2 ^ 53) (h : 1 ≤ (m : ℚ) * 2 ^ e) : -53 < e := by
  have less : (m : ℚ) < 2 ^ 53 := by exact_mod_cast lt
  have one : (2 : ℚ) ^ (0 : ℤ) < 2 ^ (53 + e) := by
    rw [zpow_zero, zpow_add₀ two_ne_zero]
    exact h.trans_lt (mul_lt_mul_of_pos_right less (two_zpow_pos e))
  have := (zpow_lt_zpow_iff_right₀ one_lt_two).mp one
  omega

/-- A significand and a power of ten that are numbers themselves. -/
theorem exists_unpack {m k : ℕ} (pos : 0 < m) (small : m < 2 ^ 53) (few : k < 23) :
    ∃ m₁ e₁ h₁ m₂ e₂ h₂, m.toUInt64.toFloat.toModel.unpack = .finite .positive m₁ e₁ h₁ ∧
      Float.exactlyRepresentablePowersOfTen[k].toModel.unpack = .finite .positive m₂ e₂ h₂ ∧
      (m : ℚ) = m₁ * 2 ^ e₁ ∧ (10 ^ k : ℚ) = m₂ * 2 ^ e₂ ∧ e₁ + e₂ ≤ 970 ∧ e₁ - e₂ ≤ 970 := by
  have word : m.toUInt64.toNat = m := Nat.mod_eq_of_lt (by omega)
  have value := value?_toFloat (i := m.toUInt64) (word.symm ▸ small.le)
  rw [word, Int.cast_natCast] at value
  have power := value?_powerOfTen few
  rw [Nat.cast_pow, Nat.cast_ofNat] at power
  have one_le : (1 : ℚ) ≤ 10 ^ k := one_le_pow₀ (by norm_num)
  obtain ⟨m₁, e₁, h₁, unpack₁, -, value₁⟩ := unpack_of_pos value (by exact_mod_cast pos)
  obtain ⟨m₂, e₂, h₂, unpack₂, lt₂, value₂⟩ := unpack_of_pos power (one_pos.trans_le one_le)
  have high₁ : e₁ < 53 := exponent_lt h₁ (value₁ ▸ by exact_mod_cast small)
  have high₂ : e₂ < (74 : ℕ) := by
    refine exponent_lt h₂ (value₂ ▸ ?_)
    calc (10 : ℚ) ^ k ≤ 10 ^ 22 := pow_le_pow_right₀ (by norm_num) (Nat.le_of_lt_succ few)
      _ < 2 ^ 74 := by norm_num
  have low₂ : -53 < e₂ := lt_exponent lt₂ (value₂ ▸ one_le)
  exact ⟨m₁, e₁, h₁, m₂, e₂, h₂, unpack₁, unpack₂, value₁, value₂, by omega, by omega⟩

/-- **Scientific notation is rounded**, with the power of ten in the denominator or not. -/
theorem isSized_ofScientific {m : ℕ} (pos : 0 < m) (below : Bool) (k : ℕ) :
    IsSized (m * 10 ^ (if below then -k else k : ℤ)) (binary (Float.ofScientific m below k)) := by
  rw [Float.ofScientific]
  by_cases fast : m < 2 ^ 53 ∧ k ≤ 22
  · rw [dif_pos fast]
    have few : k < 23 := Nat.lt_succ_of_le fast.2
    obtain ⟨m₁, e₁, h₁, m₂, e₂, h₂, unpack₁, unpack₂, value₁, value₂, sum, difference⟩ :=
      exists_unpack pos fast.1 few
    cases below with
    | false =>
      have rounded : IsRounded (m * 10 ^ k) (UnpackedFloat.mul .binary64
          m.toUInt64.toFloat.toModel.unpack
          Float.exactlyRepresentablePowersOfTen[k].toModel.unpack) := by
        rw [unpack₁, unpack₂, value₁, value₂]
        exact isRounded_mul sum h₁ h₂
      rw [if_neg Bool.false_ne_true, zpow_natCast]
      exact isSized_pack rounded
    | true =>
      have rounded : IsRounded (m / 10 ^ k) (UnpackedFloat.div .binary64
          m.toUInt64.toFloat.toModel.unpack
          Float.exactlyRepresentablePowersOfTen[k].toModel.unpack) := by
        rw [unpack₁, unpack₂, value₁, value₂]
        exact isRounded_div difference h₁ h₂
      rw [if_pos rfl, zpow_neg, zpow_natCast, ← div_eq_mul_inv]
      exact isSized_pack rounded
  · rw [dif_neg fast]
    have exponent : (if below then Int.negOfNat k else Int.ofNat k) = (if below then -k else k : ℤ) := by
      cases below
      · rfl
      · exact Int.negOfNat_eq
    dsimp only
    rw [exponent]
    exact isSized_pack (isRounded_ofScientific pos _)

/-! ## Decimals -/

theorem IsSized.zero : IsSized 0 (binary 0) := .finite limit_pos

/-- **A decimal is rounded**: to infinity from the limit on. -/
theorem isSized_toFloat (d : Decimal) : IsSized d.value (binary d.toFloat) := by
  rw [Decimal.toFloat, Decimal.value]
  split
  case isTrue small =>
    refine .finite ?_
    obtain zero | small := small
    · rw [zero, Nat.cast_zero, zero_mul]
      exact limit_pos
    · have count : (d.coefficient : ℚ) < 10 ^ (digitCount d.coefficient : ℤ) := by
        rw [zpow_natCast]
        exact_mod_cast lt_pow_digitCount d.coefficient
      calc d.coefficient * (10 : ℚ) ^ d.exponent
          ≤ 10 ^ (digitCount d.coefficient : ℤ) * 10 ^ d.exponent :=
            mul_le_mul_of_nonneg_right count.le (Decimal.ten_zpow_pos _).le
        _ = 10 ^ (digitCount d.coefficient + d.exponent) := (zpow_add₀ (by norm_num) _ _).symm
        _ < 10 ^ (0 : ℤ) := zpow_lt_zpow_right₀ (by norm_num) (by omega)
        _ ≤ limit := one_le_limit
  case isFalse moderate =>
    rw [not_or] at moderate
    have pos : 0 < d.coefficient := Nat.pos_of_ne_zero moderate.1
    split
    case isTrue large =>
      have infinite : binary (1 / 0) = .infinite false := by decide +kernel
      have count : (10 : ℚ) ^ (digitCount d.coefficient - 1 : ℤ) ≤ d.coefficient := by
        have least := pow_digitCount_le pos
        have exponent : (digitCount d.coefficient - 1 : ℤ) = (digitCount d.coefficient - 1 : ℕ) := by
          have := digitCount_pos pos
          omega
        rw [exponent, zpow_natCast]
        exact_mod_cast least
      rw [infinite]
      refine .infinite ?_
      calc limit ≤ 10 ^ 310 := limit_le_ten_pow
        _ = 10 ^ (310 : ℤ) := (zpow_ofNat 10 310).symm
        _ ≤ 10 ^ (digitCount d.coefficient - 1 + d.exponent) :=
          zpow_le_zpow_right₀ (by norm_num) (by omega)
        _ = 10 ^ (digitCount d.coefficient - 1 : ℤ) * 10 ^ d.exponent := zpow_add₀ (by norm_num) _ _
        _ ≤ d.coefficient * 10 ^ d.exponent :=
          mul_le_mul_of_nonneg_right count (Decimal.ten_zpow_pos _).le
    case isFalse =>
      have magnitude (below : Bool)
          (h : (if below then -d.exponent.natAbs else d.exponent.natAbs : ℤ) = d.exponent) :=
        h ▸ isSized_ofScientific pos below d.exponent.natAbs
      split
      case isTrue neg => exact magnitude true (by rw [if_pos rfl]; omega)
      case isFalse nonneg => exact magnitude false (by rw [if_neg Bool.false_ne_true]; omega)

/-- A natural number is rounded like the decimal. -/
theorem isSized_ofNat (n : ℕ) : IsSized n (binary (Float.ofNat n)) := by
  obtain rfl | pos := Nat.eq_zero_or_pos n
  · rw [Nat.cast_zero]
    exact .zero
  · have sized := isSized_ofScientific pos false 0
    rw [if_neg Bool.false_ne_true, Nat.cast_zero, zpow_zero, mul_one] at sized
    exact sized

end PageScript.Number
