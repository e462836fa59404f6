import PageScript.Number.Integer
import PageScript.Value.Basic

/-!
# Value/Operator — the operators on values

Both operands of an operator are always evaluated, the left one first, and so are their
conversions: of two operands that do not convert, the left one's fault is reported.
-/

namespace PageScript

namespace Value

/-- The value as a signed 64-bit integer. -/
def toInteger (v : Value) : Except Fault.Cause Int64 := do
  let n ← v.toNumber
  pure (Number.toInt64 n)

/-- The order of two numbers; there is none with the undefined number. -/
def orderNumbers (a b : Float) : Option Ordering :=
  if a < b then some .lt
  else if b < a then some .gt
  else if a == b then some .eq
  else none

/-- The order of two values: of texts if both are, empty counting as the empty text beside one, and
of numbers otherwise. -/
def order (left right : Value) : Except Fault.Cause (Option Ordering) :=
  match left, right with
  | string a, string b => .ok (some (compare a b))
  | empty, string b => .ok (some (compare "" b))
  | string a, empty => .ok (some (compare a ""))
  | _, _ => do
    let a ← left.toNumber
    let b ← right.toNumber
    pure (orderNumbers a b)

/-- Whether two values are equal as `=` and `select` compare them. -/
def areEqual (left right : Value) : Except Fault.Cause Bool := do
  let o ← left.order right
  pure (o == some .eq)

/-- An operation on the operands as numbers. -/
def numeric (op : Float → Float → Except Fault.Cause Float) (left right : Value) :
    Except Fault.Cause Value := do
  let a ← left.toNumber
  let b ← right.toNumber
  let c ← op a b
  pure (number c)

/-- A test on the order of the operands. -/
def comparison (test : Option Ordering → Bool) (left right : Value) :
    Except Fault.Cause Value := do
  let o ← left.order right
  pure (boolean (test o))

/-- An operation on the bits of the operands as integers.  Two truth values give a truth value. -/
def bitwise (op : Int64 → Int64 → Int64) (left right : Value) : Except Fault.Cause Value := do
  let a ← left.toInteger
  let b ← right.toInteger
  match left, right with
  | boolean _, boolean _ => pure (boolean (op a b != 0))
  | _, _ => pure (number (Number.ofInt64 (op a b)))

/-- Whether the value is a reference, the one to nothing included. -/
def isReference : Value → Bool
  | nothing | object _ | function _ => true
  | _ => false

/-- The result of an operator between two operands. -/
def applyBinary (op : BinaryOp) (left right : Value) : Except Fault.Cause Value :=
  match op with
  | .add =>
    match left, right with
    | string a, string b => .ok (string (a ++ b))
    | _, _ => numeric (fun a b => .ok (a + b)) left right
  | .sub => numeric (fun a b => .ok (a - b)) left right
  | .mul => numeric (fun a b => .ok (a * b)) left right
  | .div =>
    numeric (fun a b => if b == 0 then .error (.divisionByZero op) else .ok (a / b)) left right
  | .intDiv =>
    numeric (fun a b =>
      if b == 0 then .error (.divisionByZero op) else .ok (Number.truncate (a / b))) left right
  | .pow => numeric (fun a b => .ok (Float.pow a b)) left right
  | .mod =>
    numeric (fun a b =>
      let divisor := Number.toInt64 b
      if divisor = 0 then .error (.divisionByZero op)
      else .ok (Number.ofInt64 (Number.toInt64 a % divisor))) left right
  | .concat => do
    let a ← left.toText
    let b ← right.toText
    pure (string (a ++ b))
  | .eq => comparison (· == some .eq) left right
  | .notEq => comparison (· != some .eq) left right
  | .lt => comparison (· == some .lt) left right
  | .ltEq => comparison (fun o => o == some .lt || o == some .eq) left right
  | .gt => comparison (· == some .gt) left right
  | .gtEq => comparison (fun o => o == some .gt || o == some .eq) left right
  | .and => bitwise (· &&& ·) left right
  | .or => bitwise (· ||| ·) left right
  | .xor => bitwise (· ^^^ ·) left right
  | .is =>
    if left.isReference && right.isReference then .ok (boolean (left.isSame right))
    else .error (.objectRequired "is")

/-- The result of an operator in front of one operand. -/
def applyUnary (op : UnaryOp) (operand : Value) : Except Fault.Cause Value :=
  match op, operand with
  | .not, boolean b => .ok (boolean !b)
  | .not, v => do
    let n ← v.toInteger
    pure (number (Number.ofInt64 (~~~ n)))
  | .neg, v => do
    let n ← v.toNumber
    pure (number (-n))

end Value

end PageScript
