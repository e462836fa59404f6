import PageScript.Number.Binary
import PageScript.Number.Power

/-!
# Number/Integer — whole parts and 64-bit integers

Two ways from a number to an integer: `truncate` drops the fraction, `toInt64` takes the nearest
integer, a half going to the even neighbour, and holds it to the signed 64-bit range.
-/

namespace PageScript.Number

/-- The nearest integer to `significand · 2 ^ exponent`; a half goes to the even neighbour. -/
def roundHalfEven (significand : Nat) : Int → Nat
  | .ofNat k => significand * twoTo k
  | .negSucc k =>
    let unit := twoTo (k + 1)
    let whole := significand / unit
    let double := 2 * (significand % unit)
    if double < unit ∨ (double = unit ∧ whole % 2 = 0) then whole else whole + 1

/-- The nearest signed 64-bit integer.  The undefined number counts as zero, and a number outside
the range as the nearer end of it. -/
def toInt64 (x : Float) : Int64 :=
  match binary x with
  | .undefined => 0
  | .infinite negative => if negative then Int64.minValue else Int64.maxValue
  | .finite negative significand exponent =>
    let magnitude : Int := roundHalfEven significand exponent
    let value := if negative then -magnitude else magnitude
    if value < Int64.minValue.toInt then Int64.minValue
    else if Int64.maxValue.toInt < value then Int64.maxValue
    else Int64.ofInt value

/-- The number that an integer is rounded to. -/
def ofInteger : Int → Float
  | .ofNat n => Float.ofNat n
  | .negSucc n => -Float.ofNat (n + 1)

/-- The number that a signed 64-bit integer is rounded to. -/
def ofInt64 (n : Int64) : Float := ofInteger n.toInt

/-- The number without its fraction; the sign stays, also on zero. -/
def truncate (x : Float) : Float :=
  match binary x with
  | .finite negative significand (.negSucc k) =>
    let whole := Float.ofNat (significand / twoTo (k + 1))
    if negative then -whole else whole
  | _ => x

end PageScript.Number
