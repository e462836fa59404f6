import PageScript.Number.Binary
import PageScript.Number.Shortest

/-!
# Number/Text — the written form of a number

A number is written with the fewest digits that read back.  Two styles share that: `plain` is
positional at every size, `tagged` keeps a fraction on integers and turns to a power of ten outside
a range of sizes.
-/

namespace PageScript.Number

/-- How a number is written. -/
structure Style where
  /-- Whether an integer is written with the fraction `.0`. -/
  keepsFraction : Bool
  /-- The powers of ten of the leading digit, first included and last excluded, that are written
  without an exponent; `none` if all are. -/
  positional : Option (Int × Int)

/-- Plain numbers never have an exponent, and integers have no point. -/
def Style.plain : Style := ⟨false, none⟩

/-- Tagged numbers always have a point or an exponent; the exponent comes from `10 ^ 16` up and
below `10 ^ -4`. -/
def Style.tagged : Style := ⟨true, some (-4, 16)⟩

/-- So many zeros. -/
def zeros (n : Nat) : String := String.ofList (List.replicate n '0')

namespace Decimal

/-- The power of ten of the leading digit. -/
def leading (d : Decimal) : Int := (digits d.coefficient).length - 1 + d.exponent

/-- The decimal with a point at its place. -/
def positional (keepsFraction : Bool) (d : Decimal) : String :=
  let ds := digits d.coefficient
  let point := ds.length + d.exponent
  if 0 ≤ d.exponent then
    String.ofList ds ++ zeros d.exponent.toNat ++ if keepsFraction then ".0" else ""
  else if 0 < point then
    String.ofList (ds.take point.toNat) ++ "." ++ String.ofList (ds.drop point.toNat)
  else "0." ++ zeros (-point).toNat ++ String.ofList ds

/-- The decimal as a digit, the further digits behind a point, and a power of ten. -/
def scientific (d : Decimal) : String :=
  let ds := digits d.coefficient
  let further := ds.drop 1
  String.ofList (ds.take 1) ++ (if further.isEmpty then "" else "." ++ String.ofList further)
    ++ "e" ++ toString d.leading

/-- The decimal in a style. -/
def text (style : Style) (d : Decimal) : String :=
  match style.positional with
  | none => d.positional style.keepsFraction
  | some (first, last) =>
    if d.coefficient = 0 ∨ (first ≤ d.leading ∧ d.leading < last) then
      d.positional style.keepsFraction
    else d.scientific

end Decimal

/-- The number in a style. -/
def text (style : Style) (x : Float) : String :=
  match binary x with
  | .undefined => "NaN"
  | .infinite negative => if negative then "-inf" else "inf"
  | .finite negative significand exponent =>
    (if negative then "-" else "") ++ (shortest significand exponent).text style

/-- The plain written form of a number. -/
def plain (x : Float) : String := text .plain x

/-- The tagged written form of a number. -/
def tagged (x : Float) : String := text .tagged x

end PageScript.Number
