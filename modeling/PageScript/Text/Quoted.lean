import PageScript.Text.Hidden

/-!
# Text/Quoted — text between double quotes

A quoted text shows every character on one line: a quote and a backslash get a backslash in front,
the four common control characters have letters of their own, and a character that would not show
(`Text.isHidden`) is given by its code point in braces.
-/

namespace PageScript.Text

/-- The hexadecimal digits of a number, in lower case and without leading zeros. -/
def hexDigits (n : Nat) : String := String.ofList (Nat.toDigits 16 n)

/-- One character as it stands between quotes. -/
def quoteChar (c : Char) : String :=
  if c = '\x00' then "\\0"
  else if c = '\t' then "\\t"
  else if c = '\n' then "\\n"
  else if c = '\r' then "\\r"
  else if c = '"' then "\\\""
  else if c = '\\' then "\\\\"
  else if isHidden c then "\\u\x7b" ++ hexDigits c.toNat ++ "\x7d"
  else c.toString

/-- A text between double quotes, each character shown by `quoteChar`. -/
def quote (text : String) : String :=
  "\"" ++ String.join (text.toList.map quoteChar) ++ "\""

end PageScript.Text
