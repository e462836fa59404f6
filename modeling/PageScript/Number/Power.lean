/-!
# Number/Power — powers of two and of ten

Significands are scaled by powers of two, decimal coefficients by powers of ten.
-/

namespace PageScript.Number

/-- A power of two. -/
def twoTo (n : Nat) : Nat := Nat.pow 2 n

/-- A power of ten. -/
def tenTo (n : Nat) : Nat := Nat.pow 10 n

theorem twoTo_pos : ∀ n, 0 < twoTo n
  | 0 => Nat.one_pos
  | n + 1 => Nat.mul_pos (twoTo_pos n) Nat.two_pos

theorem tenTo_pos : ∀ n, 0 < tenTo n
  | 0 => Nat.one_pos
  | n + 1 => Nat.mul_pos (tenTo_pos n) (Nat.succ_pos 9)

end PageScript.Number
