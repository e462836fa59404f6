import PageScript.Number.Binary
import PageScript.Number.Decimal

/-!
# Number/Shortest — the fewest digits that read back

A finite number stands for all reals that round to it, an interval around `significand · 2 ^
exponent`.  Its shortest decimal is the point of the coarsest decimal grid that falls into the
interval; of two such points the nearer one is taken, and the upper one on a tie.  Everything is
compared in integers after clearing the denominators.
-/

namespace PageScript.Number

/-- The reals that round to one number, as integers over a common denominator: the number itself
is `middle / denominator`, and the interval reaches from `low` to `high`.  The ends belong to it if
`closed` is set. -/
structure Interval where
  low : Nat
  middle : Nat
  high : Nat
  denominator : Nat
  closed : Bool

namespace Interval

/-- The interval of `significand · 2 ^ exponent`.  It reaches half way to each neighbour; below a
power of two the neighbour is only half as far.  The ends round to even significands. -/
def ofBinary (significand : Nat) (exponent : Int) : Interval :=
  let scale := twoTo (exponent - 2).toNat
  let below := if significand = leadingBit then 1 else 2
  { low := (4 * significand - below) * scale
    middle := 4 * significand * scale
    high := (4 * significand + 2) * scale
    denominator := twoTo (2 - exponent).toNat
    closed := significand % 2 == 0 }

/-- Whether `numerator / denominator` lies in the interval. -/
def contains (i : Interval) (numerator : Nat) : Bool :=
  if i.closed then i.low ≤ numerator && numerator ≤ i.high
  else i.low < numerator && numerator < i.high

/-- The same interval with numerators and denominator scaled so that the points of the grid
`10 ^ exponent` have integer numerators: `coefficient · step / denominator`. -/
def onGrid (i : Interval) (exponent : Int) : Interval × Nat :=
  let finer := tenTo (-exponent).toNat
  ({ i with low := i.low * finer, middle := i.middle * finer, high := i.high * finer },
    tenTo exponent.toNat * i.denominator)

/-- The point of the grid `10 ^ exponent` that is nearest to the number, if one of its two
neighbours on the grid lies in the interval. -/
def nearest? (i : Interval) (exponent : Int) : Option Nat :=
  let (i, step) := i.onGrid exponent
  let floor := i.middle / step
  let excess := i.middle - floor * step
  match i.contains (floor * step), i.contains ((floor + 1) * step) with
  | true, true => some (if 2 * excess < step then floor else floor + 1)
  | true, false => some floor
  | false, true => some (floor + 1)
  | false, false => none

/-- The number of digits in front of the decimal point, counted below zero for leading zeros
behind it: the number is at least `10 ^ (k - 1)` and less than `10 ^ k`. -/
def magnitude (i : Interval) : Int :=
  digitCount (i.middle * tenTo 324 / i.denominator) - 324

/-- The first grid that has a point in the interval, trying `digits`, `digits + 1`, … digits. -/
def coarsest (i : Interval) (magnitude : Int) (digits : Nat) : Nat → Decimal
  | 0 => ⟨i.middle * tenTo 17 / i.denominator, -17⟩
  | tries + 1 =>
    let exponent := magnitude - digits
    match i.nearest? exponent with
    | some coefficient => ⟨coefficient, exponent⟩
    | none => coarsest i magnitude (digits + 1) tries

end Interval

/-- The shortest decimal of `significand · 2 ^ exponent`, without trailing zeros.  Seventeen digits
always suffice. -/
def shortest (significand : Nat) (exponent : Int) : Decimal :=
  if significand = 0 then ⟨0, 0⟩
  else
    let i := Interval.ofBinary significand exponent
    (i.coarsest i.magnitude 1 17).trim

end PageScript.Number
