import Mathlib

/-!
# Proofs/Number/Bits — words of bits as integers in two's complement

The bits of an integer go on forever to the left: with zeros where it is not negative, with ones where it
is.  A word of bits stands for the integer that goes on with its first bit (`testBit_toInt`), so an
operation on the bits of words is the same operation on the bits of integers, whatever the length of the
words (`IsBitwise`).
-/

namespace PageScript.Number

variable {w : ℕ}

/-- Integers with the same bits are equal. -/
theorem eq_of_testBit {m n : ℤ} (h : ∀ i, m.testBit i = n.testBit i) : m = n := by
  have apart {a b : ℕ} (same : ∀ i, a.testBit i = !b.testBit i) : False := by
    have small {c : ℕ} (le : c ≤ a + b) : c.testBit (a + b) = false :=
      Nat.testBit_lt_two_pow (Nat.lt_of_le_of_lt le Nat.lt_two_pow_self)
    have high := same (a + b)
    rw [small (Nat.le_add_right a b), small (Nat.le_add_left b a)] at high
    cases high
  cases m with
  | ofNat a =>
    cases n with
    | ofNat b => exact congrArg Int.ofNat (Nat.eq_of_testBit_eq h)
    | negSucc b => exact (apart h).elim
  | negSucc a =>
    cases n with
    | ofNat b => exact (apart fun i => (h i).symm).elim
    | negSucc b => exact congrArg Int.negSucc (Nat.eq_of_testBit_eq fun i => Bool.not_inj (h i))

/-- The integer of a word goes on with its first bit. -/
theorem testBit_toInt (x : BitVec w) (i : ℕ) :
    x.toInt.testBit i = if i < w then x.getLsbD i else x.msb := by
  rw [BitVec.toInt_eq_msb_cond]
  cases sign : x.msb with
  | false =>
    refine (BitVec.testBit_toNat x).trans ?_
    split
    · rfl
    · exact BitVec.getLsbD_of_ge x i (by omega)
  | true =>
    have negative : (x.toNat : ℤ) - (2 ^ w : ℕ) = Int.negSucc (2 ^ w - (x.toNat + 1)) := by
      have := x.isLt
      omega
    rw [if_pos rfl, negative]
    change (!(2 ^ w - (x.toNat + 1)).testBit i) = _
    rw [Nat.testBit_two_pow_sub_succ x.isLt, BitVec.testBit_toNat]
    by_cases h : i < w <;> simp [h]

theorem toInt_and (x y : BitVec w) : (x &&& y).toInt = Int.land x.toInt y.toInt :=
  eq_of_testBit fun i => by
    rw [Int.testBit_land, testBit_toInt, testBit_toInt, testBit_toInt, BitVec.getLsbD_and,
      BitVec.msb_and]
    split <;> rfl

theorem toInt_or (x y : BitVec w) : (x ||| y).toInt = Int.lor x.toInt y.toInt :=
  eq_of_testBit fun i => by
    rw [Int.testBit_lor, testBit_toInt, testBit_toInt, testBit_toInt, BitVec.getLsbD_or,
      BitVec.msb_or]
    split <;> rfl

theorem toInt_xor (x y : BitVec w) : (x ^^^ y).toInt = Int.xor x.toInt y.toInt :=
  eq_of_testBit fun i => by
    rw [Int.testBit_lxor, testBit_toInt, testBit_toInt, testBit_toInt, BitVec.getLsbD_xor,
      BitVec.msb_xor]
    split <;> rfl

theorem toInt_not [NeZero w] (x : BitVec w) : (~~~x).toInt = Int.lnot x.toInt :=
  eq_of_testBit fun i => by
    rw [Int.testBit_lnot, testBit_toInt, testBit_toInt, BitVec.getLsbD_not, BitVec.msb_not]
    have pos : 0 < w := Nat.pos_of_neZero w
    by_cases h : i < w <;> simp [h, pos]

/-! ## Operations on words of 64 bits -/

/-- The integers that need a sign and some further bits. -/
def Fits (k : ℕ) (n : ℤ) : Prop := -2 ^ k ≤ n ∧ n < 2 ^ k

theorem fits_toInt {k : ℕ} (x : BitVec (k + 1)) : Fits k x.toInt := ⟨x.le_toInt, x.toInt_lt⟩

theorem Fits.exists_word {k : ℕ} {n : ℤ} (h : Fits k n) : ∃ x : BitVec (k + 1), x.toInt = n := by
  have double : ((2 ^ (k + 1) : ℕ) : ℤ) = 2 * 2 ^ k := by push_cast; ring
  refine ⟨BitVec.ofInt (k + 1) n, ?_⟩
  rw [BitVec.toInt_ofInt]
  exact Int.bmod_eq_of_le (by have := h.1; omega) (by have := h.2; omega)

theorem Fits.natAbs_le {k : ℕ} {n : ℤ} (h : Fits k n) : n.natAbs ≤ 2 ^ k := by
  have bound : ((2 ^ k : ℕ) : ℤ) = 2 ^ k := by push_cast; rfl
  have := h.1
  have := h.2
  omega

/-- An operation on words that is an operation on the integers they stand for, and needs no further
bits. -/
structure IsBitwise (op : Int64 → Int64 → Int64) (f : ℤ → ℤ → ℤ) : Prop where
  toInt : ∀ a b, (op a b).toInt = f a.toInt b.toInt
  fits : ∀ {k m n}, Fits k m → Fits k n → Fits k (f m n)

/-- An operation on words of every length is one on words of 64 bits. -/
theorem IsBitwise.of_words {op : Int64 → Int64 → Int64} {f : ℤ → ℤ → ℤ}
    (words : (w : ℕ) → BitVec w → BitVec w → BitVec w)
    (toBitVec : ∀ a b, (op a b).toBitVec = words 64 a.toBitVec b.toBitVec)
    (toInt : ∀ w x y, (words w x y).toInt = f x.toInt y.toInt) : IsBitwise op f where
  toInt a b := by
    rw [← Int64.toInt_toBitVec, toBitVec, toInt, Int64.toInt_toBitVec, Int64.toInt_toBitVec]
  fits hm hn := by
    obtain ⟨x, rfl⟩ := hm.exists_word
    obtain ⟨y, rfl⟩ := hn.exists_word
    rw [← toInt]
    exact fits_toInt _

theorem isBitwise_and : IsBitwise (· &&& ·) Int.land :=
  .of_words (fun _ => (· &&& ·)) Int64.toBitVec_and fun _ => toInt_and

theorem isBitwise_or : IsBitwise (· ||| ·) Int.lor :=
  .of_words (fun _ => (· ||| ·)) Int64.toBitVec_or fun _ => toInt_or

theorem isBitwise_xor : IsBitwise (· ^^^ ·) Int.xor :=
  .of_words (fun _ => (· ^^^ ·)) Int64.toBitVec_xor fun _ => toInt_xor

theorem toInt_not_int64 (a : Int64) : (~~~a).toInt = Int.lnot a.toInt := by
  rw [← Int64.toInt_toBitVec, Int64.toBitVec_not, toInt_not, Int64.toInt_toBitVec]

theorem Fits.lnot {k : ℕ} {n : ℤ} (h : Fits k n) : Fits k (Int.lnot n) := by
  obtain ⟨x, rfl⟩ := h.exists_word
  rw [← toInt_not]
  exact fits_toInt _

/-! ## Laws -/

theorem lnot_lnot (n : ℤ) : Int.lnot (Int.lnot n) = n :=
  eq_of_testBit fun i => by rw [Int.testBit_lnot, Int.testBit_lnot, Bool.not_not]

theorem lnot_land (m n : ℤ) : Int.lnot (Int.land m n) = Int.lor (Int.lnot m) (Int.lnot n) :=
  eq_of_testBit fun i => by
    rw [Int.testBit_lnot, Int.testBit_land, Int.testBit_lor, Int.testBit_lnot, Int.testBit_lnot,
      Bool.not_and]

theorem lnot_lor (m n : ℤ) : Int.lnot (Int.lor m n) = Int.land (Int.lnot m) (Int.lnot n) :=
  eq_of_testBit fun i => by
    rw [Int.testBit_lnot, Int.testBit_lor, Int.testBit_land, Int.testBit_lnot, Int.testBit_lnot,
      Bool.not_or]

theorem xor_xor_self (m n : ℤ) : Int.xor (Int.xor m n) n = m :=
  eq_of_testBit fun i => by
    rw [Int.testBit_lxor, Int.testBit_lxor, Bool.xor_assoc, Bool.xor_self, Bool.xor_false]

end PageScript.Number
