/-!
# Number/Binary — what a double-precision number stands for

A number is read from its 64 bits as a sign, a significand and a power of two, or as one of the
exceptional values.  The rules below (integers, decimal text) work on this reading in exact integer
arithmetic; nothing is computed in floating point.
-/

namespace PageScript.Number

/-- A double-precision number taken apart.  The finite ones are `± significand · 2 ^ exponent`. -/
inductive Binary where
  | undefined
  | infinite (negative : Bool)
  | finite (negative : Bool) (significand : Nat) (exponent : Int)
deriving DecidableEq

/-- The weight of the leading bit of a full significand, which is not stored. -/
def leadingBit : Nat := 0x10000000000000

/-- The reading of the 64 bits: one for the sign, eleven for the exponent, the rest for the
significand, whose leading bit is implied unless the exponent bits are zero. -/
def Binary.ofBits (bits : Nat) : Binary :=
  let negative := bits / 0x8000000000000000 % 2 == 1
  let exponent : Nat := bits / leadingBit % 0x800
  let fraction := bits % leadingBit
  if exponent = 2047 then
    if fraction = 0 then .infinite negative else .undefined
  else if exponent = 0 then .finite negative fraction (-1074)
  else .finite negative (leadingBit + fraction) ((exponent : Int) - 1075)

/-- What a number stands for. -/
def binary (x : Float) : Binary := .ofBits x.toBits.toNat

/-- Whether a number is neither infinite nor undefined. -/
def isFinite (x : Float) : Bool :=
  match binary x with
  | .finite .. => true
  | _ => false

end PageScript.Number
