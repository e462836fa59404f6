import PageScript.Proofs.Number.Decimal
import PageScript.Proofs.Number.Exact
import PageScript.Proofs.Number.Plain

/-!
# Proofs/Number/Shortest — a number is determined by its plain text

The shortest decimal of a number lies in the interval of the reals that round to it
(`holds_shortest`): of the grids that are tried the last one is finer than the interval.  The intervals of
two numbers have no point in common (`eq_of_holds`), so finite numbers with the same plain text are the
same (`injOn_plain`).
-/

namespace PageScript.Number

open Decimal (ten_zpow_pos)

variable {i : Interval} {significand : ℕ} {exponent : ℤ} {q : ℚ}

/-! ## Powers in integers and as rational numbers -/

theorem cast_tenTo (n : ℕ) : (tenTo n : ℚ) = 10 ^ n := Nat.cast_pow 10 n

theorem cast_twoTo (n : ℕ) : (twoTo n : ℚ) = 2 ^ n := Nat.cast_pow 2 n

theorem twoTo_le {m n : ℕ} (le : m ≤ n) : twoTo m ≤ twoTo n := Nat.pow_le_pow_right Nat.two_pos le

/-- An integral power is a fraction of natural ones. -/
theorem pow_toNat {b : ℚ} (hb : b ≠ 0) (e : ℤ) : b ^ e.toNat = b ^ e * b ^ (-e).toNat := by
  rw [← zpow_natCast, ← zpow_natCast, ← zpow_add₀ hb]
  congr 1
  omega

namespace Interval

/-! ## Grids -/

/-- A rational number lies in an interval; the ends only do so if the interval is closed. -/
structure Holds (i : Interval) (q : ℚ) : Prop where
  low : i.low ≤ q * i.denominator
  high : q * i.denominator ≤ i.high
  inner : i.closed = false → i.low < q * i.denominator ∧ q * i.denominator < i.high

theorem step_onGrid (i : Interval) (e : ℤ) :
    ((i.onGrid e).2 : ℚ) = 10 ^ e * i.denominator * tenTo (-e).toNat := by
  rw [onGrid, Nat.cast_mul, cast_tenTo, cast_tenTo, pow_toNat (by norm_num) e]
  ring

theorem contains_iff {n : ℕ} : i.contains n = true ↔
    (i.low ≤ n ∧ n ≤ i.high) ∧ (i.closed = false → i.low < n ∧ n < i.high) := by
  rw [contains]
  cases i.closed
  · simp
    omega
  · simp

/-- A point of a grid that is found in an interval lies in it. -/
theorem holds_of_contains {e : ℤ} {c : ℕ}
    (h : (i.onGrid e).1.contains (c * (i.onGrid e).2) = true) : i.Holds (c * 10 ^ e) := by
  have finer : (0 : ℚ) < tenTo (-e).toNat := by exact_mod_cast tenTo_pos _
  have point : ((c * (i.onGrid e).2 : ℕ) : ℚ) = c * 10 ^ e * i.denominator * tenTo (-e).toNat := by
    rw [Nat.cast_mul, step_onGrid]
    ring
  have above (n : ℕ) : n * tenTo (-e).toNat ≤ c * (i.onGrid e).2 ↔
      (n : ℚ) ≤ c * 10 ^ e * i.denominator := by
    rw [← Nat.cast_le (α := ℚ), point, Nat.cast_mul, mul_le_mul_iff_of_pos_right finer]
  have below (n : ℕ) : c * (i.onGrid e).2 ≤ n * tenTo (-e).toNat ↔
      c * 10 ^ e * i.denominator ≤ (n : ℚ) := by
    rw [← Nat.cast_le (α := ℚ), point, Nat.cast_mul, mul_le_mul_iff_of_pos_right finer]
  obtain ⟨⟨low, high⟩, inner⟩ := contains_iff.mp h
  refine ⟨(above i.low).mp low, (below i.high).mp high, fun opened => ?_⟩
  rw [← not_le, ← not_le, ← above, ← below, not_le, not_le]
  exact inner opened

theorem holds_of_nearest? {e : ℤ} {c : ℕ} (h : i.nearest? e = some c) : i.Holds (c * 10 ^ e) := by
  rw [nearest?] at h
  dsimp only at h
  split at h
  case h_1 floor next =>
    split at h <;> cases h
    · exact holds_of_contains floor
    · exact holds_of_contains next
  case h_2 floor _ =>
    cases h
    exact holds_of_contains floor
  case h_3 _ next =>
    cases h
    exact holds_of_contains next
  case h_4 => cases h

/-- Of two neighbouring points around a number, one lies in its interval if that is wider than their
distance. -/
theorem contains_or_contains {j : Interval} {step : ℕ} (pos : 0 < step) (low : j.low < j.middle)
    (high : j.middle < j.high) (wide : j.low + step < j.high) :
    j.contains (j.middle / step * step) = true ∨ j.contains ((j.middle / step + 1) * step) = true := by
  have below : j.middle / step * step ≤ j.middle := Nat.div_mul_le_self _ _
  have above : j.middle < (j.middle / step + 1) * step := by
    rw [Nat.add_one_mul]
    exact Nat.lt_div_mul_add pos
  have next : (j.middle / step + 1) * step = j.middle / step * step + step := Nat.add_one_mul _ _
  generalize j.middle / step * step = floor at below next ⊢
  generalize (j.middle / step + 1) * step = further at above next ⊢
  simp only [contains]
  split <;> simp only [Bool.and_eq_true, decide_eq_true_eq] <;> omega

theorem nearest?_ne_none {e : ℤ} (pos : 0 < i.denominator) (low : i.low < i.middle)
    (high : i.middle < i.high) (wide : i.low + 10 ^ e * i.denominator < (i.high : ℚ)) :
    i.nearest? e ≠ none := by
  have finer : 0 < tenTo (-e).toNat := tenTo_pos _
  have fits : i.low * tenTo (-e).toNat + (i.onGrid e).2 < i.high * tenTo (-e).toNat := by
    rw [← Nat.cast_lt (α := ℚ), Nat.cast_add, Nat.cast_mul, Nat.cast_mul, step_onGrid, ← add_mul]
    exact mul_lt_mul_of_pos_right wide (by exact_mod_cast finer)
  have found := contains_or_contains (j := (i.onGrid e).1) (Nat.mul_pos (tenTo_pos _) pos)
    (Nat.mul_lt_mul_of_pos_right low finer) (Nat.mul_lt_mul_of_pos_right high finer) fits
  rw [nearest?]
  dsimp only
  intro missed
  split at missed
  case h_4 floor next => exact found.elim (fun h => nomatch floor.symm.trans h) fun h => nomatch next.symm.trans h
  all_goals cases missed

/-- If one of the grids that are tried has a point in the interval, the decimal that is chosen lies
in it. -/
theorem holds_coarsest {magnitude : ℤ} : ∀ {tries digits : ℕ}, (∃ k < tries,
    i.nearest? (magnitude - (digits + k : ℕ)) ≠ none) → i.Holds (i.coarsest magnitude digits tries).value
  | tries + 1, digits, ⟨k, less, found⟩ => by
    rw [coarsest]
    cases h : i.nearest? (magnitude - digits) with
    | some c => exact holds_of_nearest? h
    | none =>
      cases k with
      | zero => exact absurd h found
      | succ k =>
        refine holds_coarsest ⟨k, Nat.lt_of_succ_lt_succ less, ?_⟩
        rwa [Nat.add_assoc, Nat.add_comm 1 k]

/-! ## The interval of a number -/

theorem denominator_pos (significand : ℕ) (exponent : ℤ) :
    0 < (ofBinary significand exponent).denominator := twoTo_pos _

theorem scale_eq (significand : ℕ) (exponent : ℤ) : (twoTo (exponent - 2).toNat : ℚ) =
    2 ^ (exponent - 2) * (ofBinary significand exponent).denominator := by
  have negated : -(exponent - 2) = 2 - exponent := neg_sub _ _
  rw [cast_twoTo, pow_toNat two_ne_zero, negated]
  exact congrArg _ (cast_twoTo _).symm

theorem quarter_eq (e : ℤ) : (2 : ℚ) ^ e = 4 * 2 ^ (e - 2) := by
  rw [zpow_sub₀ two_ne_zero]
  ring

theorem middle_eq (significand : ℕ) (exponent : ℤ) : ((ofBinary significand exponent).middle : ℚ) =
    significand * 2 ^ exponent * (ofBinary significand exponent).denominator := by
  have written : (ofBinary significand exponent).middle = 4 * significand * twoTo (exponent - 2).toNat :=
    rfl
  rw [written, Nat.cast_mul, scale_eq significand, quarter_eq exponent]
  push_cast
  ring

/-- How far an interval reaches below its number, in quarters of the last bit. -/
def reach (significand : ℕ) : ℕ := if significand = leadingBit then 1 else 2

theorem low_eq (pos : 0 < significand) : ((ofBinary significand exponent).low : ℚ) =
    (4 * significand - reach significand) * 2 ^ (exponent - 2) *
      (ofBinary significand exponent).denominator := by
  have written : (ofBinary significand exponent).low =
    (4 * significand - reach significand) * twoTo (exponent - 2).toNat := rfl
  have less : reach significand ≤ 4 * significand := by
    rw [reach]
    split <;> omega
  rw [written, Nat.cast_mul, scale_eq significand, Nat.cast_sub less]
  push_cast
  ring

theorem high_eq : ((ofBinary significand exponent).high : ℚ) =
    (4 * significand + 2) * 2 ^ (exponent - 2) * (ofBinary significand exponent).denominator := by
  have written : (ofBinary significand exponent).high =
    (4 * significand + 2) * twoTo (exponent - 2).toNat := rfl
  rw [written, Nat.cast_mul, scale_eq significand]
  push_cast
  ring

/-- A number of at least `10 ^ -324` is at least the power of ten in front of its magnitude. -/
theorem pow_magnitude_le (pos : 0 < significand) (least : -1074 ≤ exponent) :
    10 ^ ((ofBinary significand exponent).magnitude - 1) * (ofBinary significand exponent).denominator ≤
      ((ofBinary significand exponent).middle : ℚ) := by
  have large : twoTo 1076 ≤ 4 * tenTo 324 := by decide +kernel
  have denominator : (ofBinary significand exponent).denominator ≤ twoTo 1076 :=
    twoTo_le (by omega)
  have middle : 4 ≤ (ofBinary significand exponent).middle :=
    Nat.mul_le_mul (Nat.mul_le_mul (le_refl 4) pos) (twoTo_pos _)
  have dpos := denominator_pos significand exponent
  rw [magnitude]
  generalize (ofBinary significand exponent).denominator = d at denominator dpos ⊢
  generalize (ofBinary significand exponent).middle = m at middle ⊢
  have quotient : 0 < m * tenTo 324 / d :=
    Nat.div_pos (denominator.trans (large.trans (Nat.mul_le_mul_right _ middle))) dpos
  have power := pow_digitCount_le quotient
  have count := digitCount_pos quotient
  have product : 10 ^ (digitCount (m * tenTo 324 / d) - 1) * d ≤ m * tenTo 324 :=
    (Nat.mul_le_mul_right d power).trans (Nat.div_mul_le_self _ _)
  have scaled := Nat.cast_le (α := ℚ) |>.mpr product
  rw [Nat.cast_mul, Nat.cast_mul, Nat.cast_pow, Nat.cast_ofNat, cast_tenTo] at scaled
  obtain ⟨k, hk⟩ := Nat.exists_eq_add_of_le' count
  have exponents : ((digitCount (m * tenTo 324 / d) : ℤ) - 324 - 1) = (k : ℤ) - (324 : ℕ) := by omega
  rw [exponents, zpow_sub₀ (by norm_num), zpow_natCast, zpow_natCast, div_mul_eq_mul_div,
    div_le_iff₀ (by positivity)]
  rwa [hk, Nat.add_sub_cancel] at scaled

/-- Seventeen digits suffice. -/
theorem nearest?_seventeen (pos : 0 < significand) (lt : significand < 2 ^ 53)
    (least : -1074 ≤ exponent) : (ofBinary significand exponent).nearest?
      ((ofBinary significand exponent).magnitude - 17) ≠ none := by
  have scale : 0 < twoTo (exponent - 2).toNat := twoTo_pos _
  have dpos : (0 : ℚ) < (ofBinary significand exponent).denominator := by
    exact_mod_cast denominator_pos significand exponent
  have unit : (0 : ℚ) < 2 ^ (exponent - 2) := two_zpow_pos _
  have reaches : 1 ≤ reach significand ∧ (reach significand = 1 → significand = 2 ^ 52) := by
    rw [reach]
    split
    · exact ⟨le_refl 1, fun _ => ‹_›⟩
    · exact ⟨one_le_two, nofun⟩
  refine nearest?_ne_none (denominator_pos _ _) (Nat.mul_lt_mul_of_pos_right ?_ scale)
    (Nat.mul_lt_mul_of_pos_right (Nat.lt_add_of_pos_right Nat.two_pos) scale) ?_
  · change 4 * significand - reach significand < 4 * significand
    omega
  · have power := pow_magnitude_le pos least
    have parted : (10 : ℚ) ^ ((ofBinary significand exponent).magnitude - 17) =
        10 ^ ((ofBinary significand exponent).magnitude - 1) / 10 ^ 16 := by
      rw [← zpow_natCast, ← zpow_sub₀ (by norm_num)]
      congr 1
      omega
    have few : (4 * significand / 10 ^ 16 : ℚ) < reach significand + 2 := by
      rw [div_lt_iff₀ (by norm_num)]
      have : 4 * significand < (reach significand + 2) * 10 ^ 16 := by omega
      exact_mod_cast this
    have wider := mul_lt_mul_of_pos_right few (mul_pos unit dpos)
    rw [middle_eq, quarter_eq] at power
    rw [low_eq pos, high_eq, parted]
    generalize (10 : ℚ) ^ ((ofBinary significand exponent).magnitude - 1) = p at power ⊢
    linarith

/-- The shortest decimal of a number lies in its interval. -/
theorem holds_shortest (pos : 0 < significand) (lt : significand < 2 ^ 53)
    (least : -1074 ≤ exponent) :
    (ofBinary significand exponent).Holds (shortest significand exponent).value := by
  rw [shortest, if_neg pos.ne', Decimal.value_trim]
  exact holds_coarsest ⟨16, by decide, nearest?_seventeen pos lt least⟩

/-! ## Intervals apart -/

section

variable {m n : ℕ} {e f : ℤ}

/-- A rational number in the interval of a number, in quarters of its last bit. -/
theorem Holds.bounds (pos : 0 < m) (h : (ofBinary m e).Holds q) :
    ((4 * m - reach m) * 2 ^ (e - 2) ≤ q ∧ q ≤ (4 * m + 2) * 2 ^ (e - 2)) ∧
      (m % 2 = 1 → (4 * m - reach m) * 2 ^ (e - 2) < q ∧ q < (4 * m + 2) * 2 ^ (e - 2)) := by
  have dpos : (0 : ℚ) < (ofBinary m e).denominator := by exact_mod_cast denominator_pos m e
  obtain ⟨low, high, inner⟩ := h
  rw [low_eq pos, mul_le_mul_iff_of_pos_right dpos] at low
  rw [high_eq, mul_le_mul_iff_of_pos_right dpos] at high
  rw [low_eq pos, high_eq, mul_lt_mul_iff_of_pos_right dpos, mul_lt_mul_iff_of_pos_right dpos] at inner
  refine ⟨⟨low, high⟩, fun odd => inner ?_⟩
  change (m % 2 == 0) = false
  simp [odd]

theorem reach_le (m : ℕ) : reach m ≤ 2 := by
  rw [reach]
  split <;> omega

/-- The interval of a number with a lesser exponent ends before that of the other starts. -/
theorem not_holds_of_exponent_lt (h : IsCanonicalPair m e) (h' : IsCanonicalPair n f) (pos : 0 < m)
    (pos' : 0 < n) (less : e < f) (here : (ofBinary m e).Holds q) : ¬ (ofBinary n f).Holds q := by
  intro there
  have full : 2 ^ 52 ≤ n := h'.full.resolve_right fun least => by
    have := h.least
    omega
  obtain ⟨⟨-, high⟩, inner⟩ := here.bounds pos
  obtain ⟨⟨low, -⟩, -⟩ := there.bounds pos'
  have unit : (0 : ℚ) < 2 ^ (e - 2) := two_zpow_pos _
  have twice : 2 * (2 : ℚ) ^ (e - 2) ≤ 2 ^ (f - 2) := by
    rw [mul_comm, ← zpow_add_one₀ two_ne_zero]
    exact zpow_le_zpow_right₀ one_le_two (by omega)
  -- The significand below is odd if it is the greatest, and then the end does not belong to it.
  have upper : q < (2 ^ 55 - 2) * 2 ^ (e - 2) := by
    have lt := h.lt
    obtain even | odd := Nat.mod_two_eq_zero_or_one m
    · have few : (4 * m + 2 : ℚ) < 2 ^ 55 - 2 := by
        have : 4 * m + 2 + 2 < 2 ^ 55 := by omega
        rw [lt_sub_iff_add_lt]
        exact_mod_cast this
      exact high.trans_lt (mul_lt_mul_of_pos_right few unit)
    · have few : (4 * m + 2 : ℚ) ≤ 2 ^ 55 - 2 := by
        have : 4 * m + 2 + 2 ≤ 2 ^ 55 := by omega
        rw [le_sub_iff_add_le]
        exact_mod_cast this
      exact (inner odd).2.trans_le (mul_le_mul_of_nonneg_right few unit.le)
  have lower : (2 ^ 54 - 1) * 2 ^ (f - 2) ≤ q := by
    have many : (2 ^ 54 - 1 : ℚ) ≤ 4 * n - reach n := by
      have : 2 ^ 54 + reach n ≤ 4 * n + 1 := by
        have bit : leadingBit = 2 ^ 52 := rfl
        rw [reach]
        split <;> omega
      have : (2 ^ 54 + reach n : ℚ) ≤ 4 * n + 1 := by exact_mod_cast this
      linarith
    exact (mul_le_mul_of_nonneg_right many (two_zpow_pos _).le).trans low
  linarith

/-- So does that of a number with the same exponent and a lesser significand. -/
theorem not_holds_of_lt (pos : 0 < m) (less : m < n) (here : (ofBinary m e).Holds q) :
    ¬ (ofBinary n e).Holds q := by
  intro there
  obtain ⟨⟨-, high⟩, inner⟩ := here.bounds pos
  obtain ⟨⟨low, -⟩, inner'⟩ := there.bounds (pos.trans less)
  have unit : (0 : ℚ) < 2 ^ (e - 2) := two_zpow_pos _
  have reaches := reach_le n
  have apart : (4 * m + 2 : ℚ) ≤ 4 * n - reach n := by
    have : 4 * m + 2 + reach n ≤ 4 * n := by omega
    rw [le_sub_iff_add_le]
    exact_mod_cast this
  have touching := mul_le_mul_of_nonneg_right apart unit.le
  -- Neighbours are not both even, and an end belongs to even ones only.
  by_cases odd : m % 2 = 1
  · exact absurd ((inner odd).2.trans_le touching) low.not_gt
  by_cases odd' : n % 2 = 1
  · exact absurd (touching.trans_lt (inner' odd').1) high.not_gt
  have further : (4 * m + 2 : ℚ) < 4 * n - reach n := by
    have : 4 * m + 2 + reach n < 4 * n := by omega
    rw [lt_sub_iff_add_lt]
    exact_mod_cast this
  exact absurd (high.trans_lt (mul_lt_mul_of_pos_right further unit)) low.not_gt

/-- **Intervals are apart**: a rational number lies in the interval of one number only. -/
theorem eq_of_holds (h : IsCanonicalPair m e) (h' : IsCanonicalPair n f) (pos : 0 < m) (pos' : 0 < n)
    (here : (ofBinary m e).Holds q) (there : (ofBinary n f).Holds q) : m = n ∧ e = f := by
  obtain less | rfl | greater := lt_trichotomy e f
  · exact absurd there (not_holds_of_exponent_lt h h' pos pos' less here)
  · obtain less | rfl | greater := lt_trichotomy m n
    · exact absurd there (not_holds_of_lt pos less here)
    · exact ⟨rfl, rfl⟩
    · exact absurd here (not_holds_of_lt pos' greater there)
  · exact absurd here (not_holds_of_exponent_lt h' h pos' pos greater there)

end

end Interval

/-! ## Numbers and their bits -/

section

variable {bits bits' : ℕ} {negative : Bool} {m : ℕ} {e : ℤ}

theorem isCanonicalPair_ofBits (h : Binary.ofBits bits = .finite negative m e) :
    IsCanonicalPair m e := by
  have small : bits % 2 ^ 52 < 2 ^ 52 := Nat.mod_lt _ (by decide)
  have range : bits / 2 ^ 52 % 2 ^ 11 < 2 ^ 11 := Nat.mod_lt _ (by decide)
  rw [ofBits_eq] at h
  dsimp only at h
  split at h
  · split at h <;> cases h
  split at h
  · cases h
    exact ⟨by omega, le_refl _, by decide, .inr rfl⟩
  · cases h
    exact ⟨by omega, by omega, by omega, .inl (Nat.le_add_right _ _)⟩

/-- The bits of a finite number can be told from what it stands for. -/
theorem bits_eq_of_ofBits (lt : bits < 2 ^ 64) (h : Binary.ofBits bits = .finite negative m e) :
    bits = (if negative then 2 ^ 63 else 0) +
      if m < 2 ^ 52 then m else (e + 1075).toNat * 2 ^ 52 + (m - 2 ^ 52) := by
  have parts : bits = bits / 2 ^ 63 % 2 * 2 ^ 63 + bits / 2 ^ 52 % 2 ^ 11 * 2 ^ 52 + bits % 2 ^ 52 := by
    omega
  have small : bits % 2 ^ 52 < 2 ^ 52 := Nat.mod_lt _ (by decide)
  have sign := Nat.mod_two_eq_zero_or_one (bits / 2 ^ 63)
  rw [ofBits_eq] at h
  dsimp only at h
  generalize bits % 2 ^ 52 = fraction at parts small h
  generalize bits / 2 ^ 52 % 2 ^ 11 = biased at parts h
  generalize bits / 2 ^ 63 % 2 = s at parts sign h
  have bit : (if (s == 1) = true then 2 ^ 63 else 0) = s * 2 ^ 63 := by
    obtain rfl | rfl := sign <;> rfl
  clear lt
  split at h
  · split at h <;> cases h
  split at h
  case isTrue zero =>
    obtain ⟨rfl, rfl, rfl⟩ := Binary.finite.inj h
    rw [bit, if_pos small, parts, zero, Nat.zero_mul, Nat.add_zero]
  case isFalse =>
    obtain ⟨rfl, rfl, rfl⟩ := Binary.finite.inj h
    rw [bit, if_neg (by omega), parts, Nat.add_sub_cancel_left, sub_add_cancel, Int.toNat_natCast,
      Nat.add_assoc]

/-- A finite number is determined by what it stands for. -/
theorem eq_of_binary_eq {x y : Float} (h : binary x = .finite negative m e)
    (h' : binary y = .finite negative m e) : x = y := by
  have same : x.toModel.toBits = y.toModel.toBits := UInt64.toNat_inj.mp
    ((bits_eq_of_ofBits x.toBits.toNat_lt h).trans (bits_eq_of_ofBits y.toBits.toNat_lt h').symm)
  obtain ⟨⟨bits, _⟩⟩ := x
  obtain ⟨⟨bits', _⟩⟩ := y
  cases same
  rfl

end

/-! ## Plain text -/

section

variable {m n : ℕ} {e f : ℤ}

theorem exists_of_isFinite {x : Float} (h : isFinite x = true) :
    ∃ negative m e, binary x = .finite negative m e := by
  rw [isFinite] at h
  split at h
  · exact ⟨_, _, _, ‹_›⟩
  · cases h

theorem value_shortest_pos (h : IsCanonicalPair m e) (pos : 0 < m) : 0 < (shortest m e).value := by
  obtain ⟨⟨low, -⟩, -⟩ := (Interval.holds_shortest pos h.lt h.least).bounds pos
  refine lt_of_lt_of_le (mul_pos ?_ (two_zpow_pos _)) low
  have less : Interval.reach m < 4 * m := by
    have := Interval.reach_le m
    omega
  rw [sub_pos]
  exact_mod_cast less

theorem value_shortest_zero (e : ℤ) : (shortest 0 e).value = 0 := by
  simp [shortest, Decimal.value]

/-- The shortest decimals of two numbers have different values. -/
theorem eq_of_value_shortest_eq (h : IsCanonicalPair m e) (h' : IsCanonicalPair n f)
    (same : (shortest m e).value = (shortest n f).value) : m = n ∧ e = f := by
  obtain rfl | pos := Nat.eq_zero_or_pos m
  · obtain rfl | pos' := Nat.eq_zero_or_pos n
    · exact ⟨rfl, (h.full.resolve_left (by decide)).trans (h'.full.resolve_left (by decide)).symm⟩
    · rw [value_shortest_zero] at same
      exact absurd same (value_shortest_pos h' pos').ne
  · obtain rfl | pos' := Nat.eq_zero_or_pos n
    · rw [value_shortest_zero] at same
      exact absurd same (value_shortest_pos h pos).ne'
    · exact Interval.eq_of_holds h h' pos pos' (Interval.holds_shortest pos h.lt h.least)
        (same ▸ Interval.holds_shortest pos' h'.lt h'.least)

/-- The plain text of a finite number: the shortest decimal behind its sign. -/
theorem toList_plain {x : Float} {negative : Bool} (h : binary x = .finite negative m e) :
    (plain x).toList = (if negative then ['-'] else []) ++ ((shortest m e).positional false).toList := by
  rw [plain, text, h]
  cases negative <;> simp [Decimal.text, Style.plain]

/-- **The plain text tells the number.**  Finite numbers with the same plain text are the same. -/
theorem injOn_plain : Set.InjOn plain { x | isFinite x = true } := by
  intro x hx y hy same
  obtain ⟨negative, m, e, hx⟩ := exists_of_isFinite hx
  obtain ⟨negative', n, f, hy⟩ := exists_of_isFinite hy
  have chars := congrArg String.toList same
  rw [toList_plain hx, toList_plain hy] at chars
  obtain ⟨c, cs, starts, digit⟩ := (isNumeral_positional (shortest m e)).starts
  obtain ⟨c', cs', starts', digit'⟩ := (isNumeral_positional (shortest n f)).starts
  have signs : negative = negative' ∧
      (shortest m e).positional false = (shortest n f).positional false := by
    rw [← String.toList_inj]
    cases negative <;> cases negative' <;> rw [starts, starts'] at chars ⊢ <;> cases chars
    · exact ⟨rfl, rfl⟩
    · cases digit
    · cases digit'
    · exact ⟨rfl, rfl⟩
  obtain ⟨rfl, text⟩ := signs
  obtain ⟨rfl, rfl⟩ := eq_of_value_shortest_eq (isCanonicalPair_ofBits hx) (isCanonicalPair_ofBits hy)
    (Decimal.value_eq_of_positional_eq text)
  exact eq_of_binary_eq hx hy

end

end PageScript.Number
