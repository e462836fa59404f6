/-!
# Number/Hexadecimal — hexadecimal integers

A run of hexadecimal digits stands for a 64-bit integer; a longer one stands for nothing.
-/

namespace PageScript.Number

/-- Whether a character is a hexadecimal digit, in either case. -/
def isHexDigit (c : Char) : Bool :=
  c.isDigit || ('a' ≤ c && c ≤ 'f') || ('A' ≤ c && c ≤ 'F')

/-- The value of a hexadecimal digit. -/
def hexDigitValue (c : Char) : Nat :=
  if c.isDigit then c.toNat - '0'.toNat
  else if 'a' ≤ c then c.toNat - 'a'.toNat + 10
  else c.toNat - 'A'.toNat + 10

/-- The number written by hexadecimal digits: at least one of them, nothing else, and a value below
`2 ^ 64`, which is rounded to the nearest number. -/
def ofHexDigits? (digits : List Char) : Option Float :=
  if digits.isEmpty || !digits.all isHexDigit then none
  else
    let value := digits.foldl (fun value c => value * 16 + hexDigitValue c) 0
    if value < 0x10000000000000000 then some (Float.ofNat value) else none

end PageScript.Number
