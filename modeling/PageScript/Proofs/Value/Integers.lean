import PageScript.Proofs.Number.Bits
import PageScript.Proofs.Number.Nearest
import PageScript.Value.Operator

/-!
# Proofs/Value/Integers — the operators on integers

`and`, `or`, `xor`, `not` and `mod` take their operands as signed integers of 64 bits.  Where the numbers
of the operands are integers of at most 53 bits and a sign, nothing is lost on the way there and back:
the results are the ones of integers of any length (`results_bitwise`, `results_not`, `results_mod`),
and so the laws of these hold.  Other numbers are taken as the integers that `Number.Saturates` tells, and
nothing else can go wrong (`operators_integers`).
-/

namespace PageScript.Value

open Number

variable {v w : Value} {m n : ℤ}

/-! ## Values that count as integers -/

/-- The number of the value stands for the integer. -/
def CountsAs (v : Value) (n : ℤ) : Prop := ∃ x, v.toNumber = .ok x ∧ value? x = some (n : ℚ)

/-- What a truth value counts as. -/
def truth (b : Bool) : ℤ := if b then -1 else 0

theorem countsAs_boolean (b : Bool) : (boolean b).CountsAs (truth b) := by
  cases b with
  | true => exact ⟨-1, rfl, (value?_neg (value?_ofNat (n := 1) (by decide))).trans (congrArg some (Int.cast_neg 1).symm)⟩
  | false => exact ⟨0, rfl, value?_ofNat (n := 0) (by decide)⟩

theorem CountsAs.unique (hm : v.CountsAs m) (hn : v.CountsAs n) : m = n := by
  obtain ⟨x, number, hm⟩ := hm
  obtain ⟨y, number', hn⟩ := hn
  obtain rfl := Except.ok.inj (number.symm.trans number')
  exact_mod_cast Option.some.inj (hm.symm.trans hn)

/-- A truth value counts as all bits or none. -/
theorem CountsAs.fits_zero (h : v.CountsAs n) (kind : v.kind = .boolean) : Fits 0 n := by
  cases v with
  | boolean b =>
    obtain rfl := h.unique (countsAs_boolean b)
    cases b <;> exact ⟨by decide, by decide⟩
  | _ => cases kind

/-- A value that counts as an integer of 53 bits is taken as it. -/
theorem CountsAs.toInt_toInt64 (h : v.CountsAs n) (fits : Fits 53 n) :
    ∃ x, v.toNumber = .ok x ∧ (toInt64 x).toInt = n := by
  obtain ⟨x, number, value⟩ := h
  obtain ⟨lower, upper⟩ := fits
  exact ⟨x, number, Number.toInt_toInt64 value (by omega) (by omega)⟩

/-! ## Results -/

/-- The kind of what an operator on bits results in: a truth value if all operands are. -/
def bitsKind (operands : List Value) : ValueKind :=
  if ∀ v ∈ operands, v.kind = .boolean then .boolean else .number

/-- The result of an operator on bits. -/
def ofBits (operands : List Value) (i : Int64) : Value :=
  if ∀ v ∈ operands, v.kind = .boolean then boolean (i != 0) else number (ofInt64 i)

/-- There is a result, of a kind, and it counts as the integer. -/
def Results (result : Except Fault.Cause Value) (n : ℤ) (kind : ValueKind) : Prop :=
  ∃ u, result = .ok u ∧ u.CountsAs n ∧ u.kind = kind

theorem results_number {i : Int64} (fits : Fits 53 i.toInt) :
    Results (.ok (number (ofInt64 i))) i.toInt .number :=
  ⟨_, rfl, ⟨_, rfl, value?_ofInt64 fits.natAbs_le⟩, rfl⟩

theorem results_ofBits {operands : List Value} {i : Int64} (fits : Fits 53 i.toInt)
    (truths : (∀ v ∈ operands, v.kind = .boolean) → Fits 0 i.toInt) :
    Results (.ok (ofBits operands i)) i.toInt (bitsKind operands) := by
  rw [ofBits, bitsKind]
  split
  case isTrue all =>
    obtain ⟨lower, upper⟩ := truths all
    have counts : i.toInt = truth (i != 0) := by
      have zero : i.toInt = 0 ↔ i = 0 := Int64.toInt_inj (y := 0)
      by_cases h : i = 0
      · subst h
        rfl
      · rw [truth, if_pos (bne_iff_ne.mpr h)]
        have := mt zero.mp h
        omega
    exact ⟨_, rfl, counts ▸ countsAs_boolean _, rfl⟩
  case isFalse => exact results_number fits

/-! ## Bits -/

section

variable {x y : Float}

theorem bitwise_eq (op : Int64 → Int64 → Int64) (hv : v.toNumber = .ok x) (hw : w.toNumber = .ok y) :
    bitwise op v w = .ok (ofBits [v, w] (op (toInt64 x) (toInt64 y))) := by
  rw [bitwise, toInteger, hv, toInteger, hw]
  cases v <;> cases w <;> rfl

theorem toInt64_truth (b : Bool) (h : (boolean b).toNumber = .ok x) : (toInt64 x).toInt = truth b := by
  obtain ⟨y, number, same⟩ := (countsAs_boolean b).toInt_toInt64 (by cases b <;> exact ⟨by decide, by decide⟩)
  obtain rfl := Except.ok.inj (h.symm.trans number)
  exact same

theorem not_eq (hv : v.toNumber = .ok x) :
    applyUnary .not v = .ok (ofBits [v] (~~~ toInt64 x)) := by
  cases v with
  | boolean b =>
    have bits : toInt64 x = if b then -1 else 0 := by
      rw [← Int64.toInt_inj, toInt64_truth b hv]
      cases b <;> rfl
    rw [bits]
    cases b <;> rfl
  | _ =>
    rw [applyUnary, toInteger, hv]
    · rfl
    · exact nofun

/-- **The operators on the bits of two operands** are the ones of integers of any length. -/
theorem results_bitwise {op : Int64 → Int64 → Int64} {f : ℤ → ℤ → ℤ} (h : IsBitwise op f)
    (hv : v.CountsAs m) (hw : w.CountsAs n) (hm : Fits 53 m) (hn : Fits 53 n) :
    Results (bitwise op v w) (f m n) (bitsKind [v, w]) := by
  obtain ⟨x, hx, rfl⟩ := hv.toInt_toInt64 hm
  obtain ⟨y, hy, rfl⟩ := hw.toInt_toInt64 hn
  rw [bitwise_eq op hx hy, ← h.toInt]
  refine results_ofBits (h.toInt _ _ ▸ h.fits hm hn) fun all => ?_
  rw [h.toInt]
  exact h.fits (hv.fits_zero (all v (by simp))) (hw.fits_zero (all w (by simp)))

theorem results_not (hv : v.CountsAs m) (hm : Fits 53 m) :
    Results (applyUnary .not v) (Int.lnot m) (bitsKind [v]) := by
  obtain ⟨x, hx, rfl⟩ := hv.toInt_toInt64 hm
  rw [not_eq hx, ← toInt_not_int64]
  refine results_ofBits (toInt_not_int64 _ ▸ hm.lnot) fun all => ?_
  rw [toInt_not_int64]
  exact (hv.fits_zero (all v (by simp))).lnot

end

/-! ## Laws of bits -/

theorem bitsKind_congr {us vs : List Value}
    (h : (∀ u ∈ us, u.kind = .boolean) ↔ ∀ v ∈ vs, v.kind = .boolean) : bitsKind us = bitsKind vs :=
  if_congr h rfl rfl

theorem bitsKind_eq_boolean {vs : List Value} :
    bitsKind vs = .boolean ↔ ∀ v ∈ vs, v.kind = .boolean := by
  rw [bitsKind]
  split
  case isTrue all => exact iff_of_true rfl all
  case isFalse some => exact iff_of_false nofun some

/-- A result that is used further on. -/
theorem Results.bind {result : Except Fault.Cause Value} {next : Value → Except Fault.Cause Value}
    {kind kind' : ValueKind} (h : Results result m kind)
    (further : ∀ u, u.CountsAs m → u.kind = kind → Results (next u) n kind') :
    Results (result >>= next) n kind' := by
  obtain ⟨u, rfl, counts, same⟩ := h
  exact further u counts same

theorem results_not_not (hv : v.CountsAs m) (hm : Fits 53 m) :
    Results (applyUnary .not v >>= applyUnary .not) m (bitsKind [v]) := by
  refine (results_not hv hm).bind fun u counts kind => ?_
  have result := results_not counts hm.lnot
  rw [lnot_lnot] at result
  have same : bitsKind [u] = bitsKind [v] := bitsKind_congr (by simp [kind, bitsKind_eq_boolean])
  rwa [same] at result

/-- The negation of a result, and the result of the negations. -/
theorem results_deMorgan {op op' : Int64 → Int64 → Int64} {f f' : ℤ → ℤ → ℤ} (h : IsBitwise op f)
    (h' : IsBitwise op' f') (law : ∀ m n, Int.lnot (f m n) = f' (Int.lnot m) (Int.lnot n))
    (hv : v.CountsAs m) (hw : w.CountsAs n) (hm : Fits 53 m) (hn : Fits 53 n) :
    Results (bitwise op v w >>= applyUnary .not) (Int.lnot (f m n)) (bitsKind [v, w]) ∧
      Results (do bitwise op' (← applyUnary .not v) (← applyUnary .not w)) (Int.lnot (f m n))
        (bitsKind [v, w]) := by
  constructor
  · refine (results_bitwise h hv hw hm hn).bind fun u counts kind => ?_
    have result := results_not counts (h.fits hm hn)
    have same : bitsKind [u] = bitsKind [v, w] := bitsKind_congr (by simp [kind, bitsKind_eq_boolean])
    rwa [same] at result
  · refine (results_not hv hm).bind fun u counts kind => ?_
    refine (results_not hw hn).bind fun u' counts' kind' => ?_
    have result := results_bitwise h' counts counts' hm.lnot hn.lnot
    have same : bitsKind [u, u'] = bitsKind [v, w] :=
      bitsKind_congr (by simp [kind, kind', bitsKind_eq_boolean])
    rwa [same, ← law] at result

theorem results_xor_xor (hv : v.CountsAs m) (hw : w.CountsAs n) (hm : Fits 53 m) (hn : Fits 53 n) :
    Results (bitwise (· ^^^ ·) v w >>= (bitwise (· ^^^ ·) · w)) m (bitsKind [v, w]) := by
  refine (results_bitwise isBitwise_xor hv hw hm hn).bind fun u counts kind => ?_
  have result := results_bitwise isBitwise_xor counts hw (isBitwise_xor.fits hm hn) hn
  rw [xor_xor_self] at result
  have same : bitsKind [u, w] = bitsKind [v, w] :=
    bitsKind_congr (by simp +contextual [kind, bitsKind_eq_boolean])
  rwa [same] at result

/-! ## Remainders -/

/-- What is left of an integer: less than the divisor in magnitude, of the integer's sign, and apart from
it by a multiple of the divisor. -/
def IsRemainder (m n r : ℤ) : Prop := |r| < |n| ∧ (r = 0 ∨ r.sign = m.sign) ∧ n ∣ m - r

theorem isRemainder_tmod (hn : n ≠ 0) : IsRemainder m n (m.tmod n) := by
  refine ⟨?_, ?_, Int.dvd_self_sub_tmod⟩
  · rw [Int.abs_eq_natAbs, Int.abs_eq_natAbs, Int.natAbs_tmod]
    exact_mod_cast Nat.mod_lt _ (Int.natAbs_pos.mpr hn)
  · by_cases h : n ∣ m
    · exact .inl (Int.tmod_eq_zero_of_dvd h)
    · exact .inr ((Int.sign_tmod m n).trans (if_neg h))

/-- Two remainders are apart by less than the divisor. -/
theorem IsRemainder.unique {r s : ℤ} (hr : IsRemainder m n r) (hs : IsRemainder m n s) : r = s := by
  obtain ⟨lessR, signR, multipleR⟩ := hr
  obtain ⟨lessS, signS, multipleS⟩ := hs
  have multiple : n ∣ r - s := by
    have apart := dvd_sub multipleS multipleR
    rwa [sub_sub_sub_cancel_left] at apart
  have near : (r - s).natAbs < n.natAbs := by
    rw [Int.abs_eq_natAbs, Int.abs_eq_natAbs, Int.ofNat_lt] at lessR lessS
    obtain negative | rfl | positive := lt_trichotomy m 0
    · rw [Int.sign_eq_neg_one_of_neg negative, Int.sign_eq_neg_one_iff_neg] at signR signS
      omega
    · rw [Int.sign_zero, Int.sign_eq_zero_iff_zero] at signR signS
      omega
    · rw [Int.sign_eq_one_of_pos positive, Int.sign_eq_one_iff_pos] at signR signS
      omega
  exact sub_eq_zero.mp (Int.eq_zero_of_dvd_of_natAbs_lt_natAbs multiple near)

/-- A remainder needs no more bits than the integer that it is left of. -/
theorem fits_tmod {k : ℕ} (h : Fits k m) (n : ℤ) : Fits k (m.tmod n) := by
  have less : (m.tmod n).natAbs ≤ m.natAbs := Int.natAbs_tmod m n ▸ Nat.mod_le _ _
  have positive : 0 ≤ m → 0 ≤ m.tmod n := Int.tmod_nonneg n
  have negative : 0 ≤ -m → 0 ≤ -m.tmod n := fun h => Int.neg_tmod m n ▸ Int.tmod_nonneg n h
  obtain ⟨lower, upper⟩ := h
  exact ⟨by omega, by omega⟩

theorem mod_eq {x y : Float} (hv : v.toNumber = .ok x) (hw : w.toNumber = .ok y) :
    applyBinary .mod v w = if toInt64 y = 0 then .error (.divisionByZero .mod)
      else .ok (number (ofInt64 (toInt64 x % toInt64 y))) := by
  rw [applyBinary, numeric, hv, hw]
  change (if _ then _ else _ : Except Fault.Cause Float) >>= _ = _
  split <;> rfl

/-- **The remainder** is the one of integers, and there is none of a division by zero. -/
theorem results_mod (hv : v.CountsAs m) (hw : w.CountsAs n) (hm : Fits 53 m) (hn : Fits 53 n) :
    (n = 0 → applyBinary .mod v w = .error (.divisionByZero .mod)) ∧
      (n ≠ 0 → Results (applyBinary .mod v w) (m.tmod n) .number) := by
  obtain ⟨x, hx, rfl⟩ := hv.toInt_toInt64 hm
  obtain ⟨y, hy, rfl⟩ := hw.toInt_toInt64 hn
  have zero : (toInt64 y).toInt = 0 ↔ toInt64 y = 0 := Int64.toInt_inj (y := 0)
  rw [mod_eq hx hy]
  refine ⟨fun none => if_pos (zero.mp none), fun some => ?_⟩
  rw [if_neg (mt zero.mpr some), ← Int64.toInt_mod]
  exact results_number (Int64.toInt_mod _ _ ▸ fits_tmod hm _)

/-! ## All operands -/

/-- **The operators on integers are exact.**  Where the operands count as integers from `-2 ^ 53` on and
below `2 ^ 53`, the operators on bits result in what they are in two's complement, and the laws of these
hold; the remainder is the one of integers, and only a division by zero has none.  Other operands that
have numbers are taken as integers of 64 bits, and their operators result in a value or in a division by
zero. -/
theorem operators_integers :
    (∀ (v w : Value) (m n : ℤ), v.CountsAs m → w.CountsAs n → Fits 53 m → Fits 53 n →
      Results (applyBinary .and v w) (Int.land m n) (bitsKind [v, w]) ∧
      Results (applyBinary .or v w) (Int.lor m n) (bitsKind [v, w]) ∧
      Results (applyBinary .xor v w) (Int.xor m n) (bitsKind [v, w]) ∧
      Results (applyUnary .not v) (Int.lnot m) (bitsKind [v]) ∧
      Results (applyUnary .not v >>= applyUnary .not) m (bitsKind [v]) ∧
      (∃ k, Results (applyBinary .and v w >>= applyUnary .not) k (bitsKind [v, w]) ∧
        Results (do applyBinary .or (← applyUnary .not v) (← applyUnary .not w)) k (bitsKind [v, w])) ∧
      (∃ k, Results (applyBinary .or v w >>= applyUnary .not) k (bitsKind [v, w]) ∧
        Results (do applyBinary .and (← applyUnary .not v) (← applyUnary .not w)) k (bitsKind [v, w])) ∧
      Results (applyBinary .xor v w >>= (applyBinary .xor · w)) m (bitsKind [v, w]) ∧
      (applyBinary .mod v w = .error (.divisionByZero .mod) ↔ n = 0) ∧
      (n ≠ 0 → ∃ r, Results (applyBinary .mod v w) r .number ∧ IsRemainder m n r ∧
        ∀ s, IsRemainder m n s → s = r)) ∧
    ∀ (v w : Value) (x y : Float), v.toNumber = .ok x → w.toNumber = .ok y →
      ∃ i j : Int64, Saturates (binary x) i ∧ Saturates (binary y) j ∧
        applyBinary .and v w = .ok (ofBits [v, w] (i &&& j)) ∧
        applyBinary .or v w = .ok (ofBits [v, w] (i ||| j)) ∧
        applyBinary .xor v w = .ok (ofBits [v, w] (i ^^^ j)) ∧
        applyUnary .not v = .ok (ofBits [v] (~~~ i)) ∧
        applyBinary .mod v w = (if j = 0 then .error (.divisionByZero .mod)
          else .ok (number (ofInt64 (i % j)))) ∧
        (i % j).toInt = i.toInt.tmod j.toInt := by
  refine ⟨fun v w m n hv hw hm hn => ?_, fun v w x y hv hw => ?_⟩
  · obtain ⟨none, some⟩ := results_mod hv hw hm hn
    refine ⟨results_bitwise isBitwise_and hv hw hm hn, results_bitwise isBitwise_or hv hw hm hn,
      results_bitwise isBitwise_xor hv hw hm hn, results_not hv hm, results_not_not hv hm,
      ⟨_, results_deMorgan isBitwise_and isBitwise_or lnot_land hv hw hm hn⟩,
      ⟨_, results_deMorgan isBitwise_or isBitwise_and lnot_lor hv hw hm hn⟩,
      results_xor_xor hv hw hm hn, ⟨fun failed => ?_, none⟩, fun nonzero => ?_⟩
    · by_contra nonzero
      obtain ⟨u, result, -⟩ := some nonzero
      rw [failed] at result
      cases result
    · have remainder := isRemainder_tmod (m := m) nonzero
      exact ⟨_, some nonzero, remainder, fun s hs => hs.unique remainder⟩
  · exact ⟨toInt64 x, toInt64 y, saturates_toInt64 x, saturates_toInt64 y, bitwise_eq _ hv hw,
      bitwise_eq _ hv hw, bitwise_eq _ hv hw, not_eq hv, mod_eq hv hw, Int64.toInt_mod _ _⟩

/-- A truth value among the operands counts as all bits, and the result is a number. -/
theorem operators_integers_truth : (boolean true).CountsAs (-1) ∧ (number 12).CountsAs 12 ∧
    Results (applyBinary .xor (boolean true) (number 12)) (-13) .number ∧
    Results (applyBinary .mod (number 12) (boolean true)) 0 .number := by
  have all : (boolean true).CountsAs (-1) := countsAs_boolean true
  have twelve : (number 12).CountsAs 12 := ⟨12, rfl, value?_ofNat (n := 12) (by decide)⟩
  have fits : Fits 53 (-1) ∧ Fits 53 12 := ⟨⟨by decide, by decide⟩, ⟨by decide, by decide⟩⟩
  obtain ⟨-, -, xor, -⟩ := operators_integers.1 _ _ _ _ all twelve fits.1 fits.2
  obtain ⟨-, -, -, -, -, -, -, -, -, mod⟩ := operators_integers.1 _ _ _ _ twelve all fits.2 fits.1
  obtain ⟨r, result, -, unique⟩ := mod (by decide)
  have zero : IsRemainder 12 (-1) 0 := ⟨by decide, .inl rfl, ⟨-12, rfl⟩⟩
  exact ⟨all, twelve, xor, unique 0 zero ▸ result⟩

end PageScript.Value
