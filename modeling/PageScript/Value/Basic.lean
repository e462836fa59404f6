import PageScript.Number.Hexadecimal
import PageScript.Number.Text
import PageScript.Text.Blank
import PageScript.Value.Fault

/-!
# Value/Basic — values and what they count as

A value is a text, a number, a truth value, one of three kinds of nothing, or a reference to an
object or a function.  Every operator takes its operands as numbers (`Value.toNumber`) or as texts
(`Value.toText`); references have neither form.
-/

namespace PageScript

/-- A reference to an object. -/
structure ObjectId where
  index : Nat
deriving DecidableEq

/-- A reference to a function. -/
structure FunctionId where
  index : Nat
deriving DecidableEq

/-- A value of a running script. -/
inductive Value where
  | string (text : String)
  | number (value : Float)
  | boolean (value : Bool)
  | empty
  | null
  | nothing
  | object (id : ObjectId)
  | function (id : FunctionId)

instance : Inhabited Value := ⟨.empty⟩

/-- The number that a text stands for, if it does.  Blanks around it do not count.  It is either a
hexadecimal integer behind `&H`, with at most one `&` behind it and with a plus sign allowed in
front of its digits, or a decimal numeral with or without a sign. -/
def readNumber? (text : String) : Option Float :=
  match Text.trimBlanks text.toList with
  | '&' :: 'H' :: rest | '&' :: 'h' :: rest =>
    let rest := if rest.getLast? == some '&' then rest.dropLast else rest
    match rest with
    | '+' :: digits => Number.ofHexDigits? digits
    | digits => Number.ofHexDigits? digits
  | chars => Number.ofSignedNumeral? chars

namespace Value

/-- The value of a literal. -/
def ofLiteral : Literal → Value
  | .string text => string text
  | .number value => number value
  | .boolean value => boolean value
  | .empty => empty
  | .null => null
  | .nothing => nothing

/-- The kind of a value. -/
def kind : Value → ValueKind
  | string _ => .string
  | number _ => .number
  | boolean _ => .boolean
  | empty => .empty
  | null => .null
  | nothing => .nothing
  | object _ => .object
  | function _ => .function

/-- The value as a number: true is `-1`, and false, empty and nothing are zero. -/
def toNumber : Value → Except Fault.Cause Float
  | number value => .ok value
  | boolean true => .ok (-1)
  | boolean false | empty | nothing => .ok 0
  | null => .error (.nullUse "numeric conversion")
  | string text =>
    match readNumber? text with
    | some value => .ok value
    | none => .error (.typeMismatch ("\"" ++ text ++ "\" is not a number") .string)
  | object _ => .error (.typeMismatch "numeric conversion" .object)
  | function _ => .error (.typeMismatch "numeric conversion" .function)

/-- Whether the value counts as true: any number but zero does. -/
def isTrue (v : Value) : Except Fault.Cause Bool := do
  let n ← v.toNumber
  pure (n != 0)

/-- The text of a number in output; both zeros are written alike. -/
def numberText (value : Float) : String := if value == 0 then "0" else Number.plain value

/-- The value as a text: empty and null are written as nothing at all. -/
def toText : Value → Except Fault.Cause String
  | string text => .ok text
  | number value => .ok (numberText value)
  | boolean true => .ok "True"
  | boolean false => .ok "False"
  | empty | null => .ok ""
  | nothing => .ok "Nothing"
  | object _ => .error (.typeMismatch "conversion to text" .object)
  | function _ => .error (.typeMismatch "conversion to text" .function)

/-- Whether two values are the same: equal as plain values, or one and the same object or
function. -/
def isSame : Value → Value → Bool
  | string a, string b => a == b
  | number a, number b => a == b
  | boolean a, boolean b => a == b
  | empty, empty | null, null | nothing, nothing => true
  | object a, object b => a == b
  | function a, function b => a == b
  | _, _ => false

end Value

end PageScript
