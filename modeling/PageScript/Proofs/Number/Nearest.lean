import PageScript.Number.Integer
import PageScript.Proofs.Number.Exact

/-!
# Proofs/Number/Nearest — from numbers to integers and back

`toInt64` takes the nearest integer, of two that are equally near the even one, and the nearest bound if
that is beyond the 64 bits (`saturates_toInt64`).  It gives an integer that a number stands for back, and
an integer of magnitude at most `2 ^ 53` is turned into a number that stands for it (`value?_ofInt64`).
-/

namespace PageScript.Number

open Float.Model Float.Model.UnpackedFloat

/-! ## The nearest integer -/

/-- The integer is the nearest one, and the even one of two that are equally near. -/
def IsNearest (q : ℚ) (n : ℤ) : Prop := |q - n| ≤ 1 / 2 ∧ (|q - n| = 1 / 2 → Even n)

theorem IsNearest.neg {q : ℚ} {n : ℤ} (h : IsNearest q n) : IsNearest (-q) (-n) := by
  have apart : |-q - ((-n : ℤ) : ℚ)| = |q - n| := by
    rw [Int.cast_neg, neg_sub_neg, abs_sub_comm]
  rw [IsNearest, apart]
  exact ⟨h.1, fun half => (h.2 half).neg⟩

theorem IsNearest.self (n : ℤ) : IsNearest n n := by
  rw [IsNearest, sub_self, abs_zero]
  exact ⟨by norm_num, fun half => absurd half (by norm_num)⟩

/-- Two integers that are equally near to a number are neighbours, and only one of them is even. -/
theorem IsNearest.unique {q : ℚ} {m n : ℤ} (hm : IsNearest q m) (hn : IsNearest q n) : m = n := by
  have ordered {m n : ℤ} (hm : IsNearest q m) (hn : IsNearest q n) : ¬ m < n := by
    intro less
    have upper := (abs_le.mp hm.1).2
    have lower := (abs_le.mp hn.1).1
    have next : (m : ℚ) + 1 ≤ n := by exact_mod_cast less
    have halfway : q - m = 1 / 2 ∧ q - n = -(1 / 2) := ⟨by linarith, by linarith⟩
    have evenM : Even m := hm.2 (by rw [halfway.1]; norm_num)
    have evenN : Even n := hn.2 (by rw [halfway.2]; norm_num)
    have neighbours : n = m + 1 := by
      have : (n : ℚ) = m + 1 := by linarith
      exact_mod_cast this
    rw [neighbours, Int.even_add_one] at evenN
    exact evenN evenM
  exact le_antisymm (not_lt.mp (ordered hn hm)) (not_lt.mp (ordered hm hn))

/-- The nearest integer to a quotient. -/
theorem isNearest_div {m unit : ℕ} (pos : 0 < unit) : IsNearest (m / unit : ℚ)
    (if 2 * (m % unit) < unit ∨ (2 * (m % unit) = unit ∧ m / unit % 2 = 0) then m / unit
      else m / unit + 1 : ℕ) := by
  have scale : (0 : ℚ) < unit := by exact_mod_cast pos
  have split : (m / unit : ℚ) = (m / unit : ℕ) + (m % unit : ℕ) / unit := by
    rw [eq_comm, ← eq_sub_iff_add_eq', div_eq_iff scale.ne', sub_mul, div_mul_cancel₀ _ scale.ne',
      eq_sub_iff_add_eq]
    exact_mod_cast Nat.mod_add_div' m unit
  have below : m % unit < unit := Nat.mod_lt m pos
  generalize m / unit = whole at split ⊢
  generalize m % unit = left at split below ⊢
  have fraction : (0 : ℚ) ≤ left / unit := by positivity
  have one : (left / unit : ℚ) < 1 := (div_lt_one scale).mpr (by exact_mod_cast below)
  have compared : (left / unit : ℚ) < 1 / 2 ↔ 2 * left < unit := by
    rw [div_lt_div_iff₀ scale two_pos, one_mul, mul_comm]
    exact_mod_cast Iff.rfl
  have halved : (left / unit : ℚ) = 1 / 2 ↔ 2 * left = unit := by
    rw [div_eq_div_iff scale.ne' two_ne_zero, one_mul, mul_comm]
    exact_mod_cast Iff.rfl
  rw [split, IsNearest]
  generalize (left / unit : ℚ) = part at fraction one compared halved ⊢
  split
  case isTrue near =>
    have apart : |(whole : ℚ) + part - ((whole : ℕ) : ℤ)| = part := by
      rw [Int.cast_natCast, add_sub_cancel_left, abs_of_nonneg fraction]
    rw [apart, halved]
    obtain less | ⟨half, even⟩ := near
    · exact ⟨(compared.mpr less).le, fun half => absurd half less.ne⟩
    · exact ⟨(halved.mpr half).le, fun _ => by exact_mod_cast Nat.even_iff.mpr even⟩
  case isFalse far =>
    rw [not_or, not_lt, not_and] at far
    have apart : |(whole : ℚ) + part - ((whole + 1 : ℕ) : ℤ)| = 1 - part := by
      push_cast
      rw [add_sub_add_left_eq_sub, abs_sub_comm, abs_of_pos (sub_pos.mpr one)]
    rw [apart]
    refine ⟨?_, fun half => ?_⟩
    · have : ¬ part < 1 / 2 := fun less => absurd (compared.mp less) (not_lt.mpr far.1)
      linarith
    · have odd := far.2 (halved.mp (by linarith))
      exact_mod_cast Nat.even_iff.mpr (by omega : (whole + 1) % 2 = 0)

theorem isNearest_roundHalfEven (significand : ℕ) (exponent : ℤ) :
    IsNearest (significand * 2 ^ exponent) (roundHalfEven significand exponent) := by
  cases exponent with
  | ofNat k =>
    have whole : (significand * 2 ^ (Int.ofNat k) : ℚ) = ((significand * twoTo k : ℕ) : ℤ) := by
      rw [Int.ofNat_eq_natCast, zpow_natCast, Int.cast_natCast, Nat.cast_mul]
      exact congrArg _ (Nat.cast_pow 2 k).symm
    rw [whole]
    exact .self _
  | negSucc k =>
    have quotient : (significand * 2 ^ (Int.negSucc k) : ℚ) = significand / twoTo (k + 1) := by
      rw [zpow_negSucc, div_eq_mul_inv]
      exact congrArg _ (congrArg _ (Nat.cast_pow 2 (k + 1)).symm)
    rw [quotient]
    exact isNearest_div (twoTo_pos (k + 1))

/-! ## 64 bits -/

/-- A number as a signed integer of 64 bits: the undefined one as zero, any other one as the nearest
integer, held to the range. -/
inductive Saturates : Binary → Int64 → Prop
  | undefined : Saturates .undefined 0
  | infinite (negative : Bool) :
      Saturates (.infinite negative) (if negative then Int64.minValue else Int64.maxValue)
  | finite {b : Binary} {q : ℚ} {n : ℤ} {i : Int64} (value : b.value? = some q)
      (nearest : IsNearest q n) (held : i.toInt = max (-2 ^ 63) (min (2 ^ 63 - 1) n)) : Saturates b i

/-- An integer held to the range of 64 bits. -/
theorem toInt_held (n : ℤ) : (if n < Int64.minValue.toInt then Int64.minValue
    else if Int64.maxValue.toInt < n then Int64.maxValue else Int64.ofInt n).toInt =
      max (-2 ^ 63) (min (2 ^ 63 - 1) n) := by
  have least : Int64.minValue.toInt = -2 ^ 63 := rfl
  have greatest : Int64.maxValue.toInt = 2 ^ 63 - 1 := rfl
  split
  · omega
  split
  · omega
  · rw [Int64.toInt_ofInt_of_le (by omega) (by omega)]
    omega

theorem saturates_toInt64 (x : Float) : Saturates (binary x) (toInt64 x) := by
  rw [toInt64]
  cases binary x with
  | undefined => exact .undefined
  | infinite negative => exact .infinite negative
  | finite negative significand exponent =>
    refine .finite (n := if negative then -(roundHalfEven significand exponent : ℤ)
      else roundHalfEven significand exponent) rfl ?_ (toInt_held _)
    have nearest := isNearest_roundHalfEven significand exponent
    cases negative with
    | false => exact nearest
    | true =>
      rw [if_pos rfl, if_pos rfl, neg_mul]
      exact nearest.neg

/-- A number that stands for an integer of 64 bits is turned into it. -/
theorem toInt_toInt64 {x : Float} {n : ℤ} (h : value? x = some (n : ℚ)) (lower : -2 ^ 63 ≤ n)
    (upper : n < 2 ^ 63) : (toInt64 x).toInt = n := by
  have saturates := saturates_toInt64 x
  rw [value?] at h
  generalize binary x = b at saturates h
  generalize toInt64 x = i at saturates ⊢
  cases saturates with
  | undefined => cases h
  | infinite => cases h
  | finite value nearest held =>
    obtain rfl := Option.some.inj (value.symm.trans h)
    rw [held, nearest.unique (.self n)]
    omega

/-! ## Integers as numbers -/

section

variable {u : UnpackedFloat} {n : ℤ}

/-- An integer times one is the integer. -/
theorem mul_one_integer (canonical : IsCanonical u) (value : unpackedValue? u = some (n : ℚ))
    (le : n.natAbs ≤ 2 ^ 53) :
    UnpackedFloat.mul .binary64 u (.finite .positive (2 ^ 52) (-52) (by decide)) = u := by
  have unsigned (s : Sign) : s * .positive = s := by cases s <;> rfl
  cases u with
  | infinity => cases value
  | notANumber => cases value
  | zero s => rw [UnpackedFloat.mul, unsigned]
  | finite s m e hm =>
    have pair : IsCanonicalPair m e := canonical
    have rounded := roundWithAccuracy_exact ⟨full_of_integer pair value le, pair.lt⟩ pair.least s 52
    rw [UnpackedFloat.mul, unsigned]
    exact rounded

theorem unpackedValue?_neg {q : ℚ} (value : unpackedValue? u = some q) :
    unpackedValue? u.neg = some (-q) := by
  cases u with
  | infinity => cases value
  | notANumber => cases value
  | zero s =>
    cases value
    rw [neg_zero]
    rfl
  | finite s m e hm =>
    cases s with
    | positive =>
      rw [unpackedValue?_positive] at value
      rw [← Option.some.inj value]
      exact unpackedValue?_negative hm
    | negative =>
      rw [unpackedValue?_negative] at value
      rw [← Option.some.inj value, neg_neg]
      exact unpackedValue?_positive hm

theorem IsCanonical.neg (canonical : IsCanonical u) : IsCanonical u.neg := by
  cases u <;> exact canonical

end

/-- The number of an unpacked one that is packed without loss. -/
theorem value?_ofModel_pack {u : UnpackedFloat} (packs : Packs u) :
    value? (Float.ofModel (Float.Model.pack u)) = unpackedValue? u :=
  (value?_eq _).trans (congrArg unpackedValue? packs)

theorem value?_neg {x : Float} {q : ℚ} (h : value? x = some q) : value? (-x) = some (-q) :=
  (value?_ofModel_pack (isCanonical_unpack _).neg.packs).trans (unpackedValue?_neg (value?_eq x ▸ h))

theorem isFinite_iff {x : Float} : isFinite x = true ↔ ∃ q, value? x = some q := by
  rw [isFinite, value?]
  cases binary x <;> simp [Binary.value?]

theorem isFinite_neg {x : Float} (h : isFinite x = true) : isFinite (-x) = true := by
  obtain ⟨q, value⟩ := isFinite_iff.mp h
  exact isFinite_iff.mpr ⟨-q, value?_neg value⟩

theorem value?_mul_one {x : Float} {n : ℤ} (h : value? x = some (n : ℚ)) (le : n.natAbs ≤ 2 ^ 53) :
    value? (x * Float.ofBits 0x3FF0000000000000) = some (n : ℚ) := by
  have canonical : IsCanonical x.toModel.unpack := isCanonical_unpack _
  rw [value?_eq] at h
  have same := mul_one_integer canonical h le
  have packs : Packs (UnpackedFloat.mul .binary64 x.toModel.unpack
      (.finite .positive (2 ^ 52) (-52) (by decide))) := by
    rw [same]
    exact canonical.packs
  exact (value?_ofModel_pack packs).trans ((congrArg unpackedValue? same).trans h)

theorem value?_toFloat {i : UInt64} (le : i.toNat ≤ 2 ^ 53) :
    value? i.toFloat = some ((i.toNat : ℤ) : ℚ) := by
  have small : (i.toNat : ℤ).natAbs ≤ 2 ^ 53 := le
  obtain ⟨value, packs⟩ := normalize_integer small (by rw [zpow_zero, mul_one])
  exact (value?_ofModel_pack packs).trans value

/-- A natural number of at most `2 ^ 53` is turned into a number that stands for it. -/
theorem value?_ofNat {n : ℕ} (le : n ≤ 2 ^ 53) : value? (Float.ofNat n) = some ((n : ℤ) : ℚ) := by
  obtain rfl | less := eq_or_lt_of_le le
  · have read : binary (Float.ofNat (2 ^ 53)) = .finite false (2 ^ 52) 1 := by decide +kernel
    rw [value?, read, Binary.value?]
    norm_num
  · have word : n.toUInt64.toNat = n := Nat.mod_eq_of_lt (by omega)
    have product : Float.ofNat n = n.toUInt64.toFloat * Float.ofBits 0x3FF0000000000000 := by
      change Float.ofScientific n false 0 = _
      rw [Float.ofScientific, dif_pos ⟨less, by decide⟩]
      rfl
    have value := value?_toFloat (i := n.toUInt64) (word.symm ▸ le)
    rw [word] at value
    rw [product]
    exact value?_mul_one value le

/-- An integer of magnitude at most `2 ^ 53` is turned into a number that stands for it. -/
theorem value?_ofInteger {n : ℤ} (le : n.natAbs ≤ 2 ^ 53) : value? (ofInteger n) = some (n : ℚ) := by
  cases n with
  | ofNat n => exact value?_ofNat le
  | negSucc n => exact (value?_neg (value?_ofNat le)).trans (congrArg some (Int.cast_neg _).symm)

theorem value?_ofInt64 {i : Int64} (le : i.toInt.natAbs ≤ 2 ^ 53) :
    value? (ofInt64 i) = some (i.toInt : ℚ) :=
  value?_ofInteger le

end PageScript.Number
