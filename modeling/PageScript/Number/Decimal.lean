import PageScript.Number.Power

/-!
# Number/Decimal — decimal numerals and their values

A decimal is a coefficient and a power of ten.  `Decimal.ofNumeral?` reads the written form of one,
`Decimal.toFloat` rounds it to the nearest number.
-/

namespace PageScript.Number

/-- The value `coefficient · 10 ^ exponent`. -/
structure Decimal where
  coefficient : Nat
  exponent : Int
deriving DecidableEq

/-- The value of a digit. -/
def digitValue (c : Char) : Nat := c.toNat - '0'.toNat

/-- The value of a run of digits, the first one weighing most. -/
def digitsValue (digits : List Char) : Nat :=
  digits.foldl (fun value c => value * 10 + digitValue c) 0

/-- The digits of a number in decimal. -/
def digits (n : Nat) : List Char := Nat.toDigits 10 n

/-- How many digits a positive number has in decimal; none for zero. -/
def digitCount (n : Nat) : Nat := if n = 0 then 0 else (digits n).length

namespace Decimal

/-- The same value with the trailing zeros of the coefficient moved to the exponent. -/
def trim (d : Decimal) : Decimal :=
  let zeros := ((digits d.coefficient).reverse.takeWhile (· == '0')).length
  if d.coefficient = 0 then ⟨0, 0⟩ else ⟨d.coefficient / tenTo zeros, d.exponent + zeros⟩

/-- The value rounded to the nearest number, to even on a tie.  What is at least `10 ^ 309` is
infinite, what is below `10 ^ -325` is zero; in between the exact value is rounded. -/
def toFloat (d : Decimal) : Float :=
  let leading := digitCount d.coefficient + d.exponent
  if d.coefficient = 0 ∨ leading < -325 then 0
  else if 310 < leading then 1 / 0
  else if d.exponent < 0 then Float.ofScientific d.coefficient true d.exponent.natAbs
  else Float.ofScientific d.coefficient false d.exponent.natAbs

/-- Reads an exponent: a sign or none, then at least one digit and nothing else. -/
def exponentOfChars? (chars : List Char) : Option Int :=
  let (negative, rest) := match chars with
    | '-' :: rest => (true, rest)
    | '+' :: rest => (false, rest)
    | rest => (false, rest)
  if rest.isEmpty || !rest.all Char.isDigit then none
  else
    let value : Int := digitsValue rest
    some (if negative then -value else value)

/-- Reads a numeral without sign: digits, with a point before, among or behind them, and after
`e` or `E` a power of ten.  There is at least one digit besides the exponent. -/
def ofNumeral? (chars : List Char) : Option Decimal :=
  let whole := chars.takeWhile Char.isDigit
  let rest := chars.dropWhile Char.isDigit
  let (fraction, rest) := match rest with
    | '.' :: rest => (rest.takeWhile Char.isDigit, rest.dropWhile Char.isDigit)
    | rest => ([], rest)
  if whole.isEmpty && fraction.isEmpty then none
  else
    let value := digitsValue (whole ++ fraction)
    match rest with
    | [] => some ⟨value, -fraction.length⟩
    | c :: rest =>
      if c == 'e' || c == 'E' then
        (exponentOfChars? rest).map fun e => ⟨value, e - fraction.length⟩
      else none

end Decimal

/-- Reads a numeral with or without a sign as the nearest number. -/
def ofSignedNumeral? : List Char → Option Float
  | '-' :: rest => (Decimal.ofNumeral? rest).map fun d => -d.toFloat
  | '+' :: rest => (Decimal.ofNumeral? rest).map Decimal.toFloat
  | chars => (Decimal.ofNumeral? chars).map Decimal.toFloat

end PageScript.Number
