import PageScript.Value.Basic

/-!
# Machine/Routine — what native functions are made of

A native function is code of the host.  It gets the cells of its arguments and may hold further cells
of its own, and what it does to the rest of the program is a row of deeds: it reads and writes cells,
makes cells, objects and functions, changes the members of objects, writes to the response or to the
log, asks the request or the clock, or fails.  In between it computes what it likes, so a `Routine` is
a tree that branches on what its deeds tell.

A routine has cells and values at hand in registers, the latest first, and names them by their places
there.  It can compare them, but where something is in the store it cannot tell.
-/

namespace PageScript

/-- A value as native functions see it: a reference does not tell where it leads. -/
def Value.sight : Value → Value
  | object _ => object ⟨0⟩
  | function _ => function ⟨0⟩
  | v => v

/-- Why a native function fails.  It may give any cause but one: that an include directive has no file
is for the machine to say. -/
structure Refusal where
  cause : Fault.Cause
  own : ∀ path, cause ≠ .unsupported ("unresolved #include \"" ++ path ++ "\"")

/-- What a native function does at once.  Cells, values and objects are given by their registers. -/
inductive Deed where
  /-- Takes the value in a cell. -/
  | read (cell : Nat)
  /-- Tells whether a cell refuses writes. -/
  | isReadonly (cell : Nat)
  | isSameCell (cell other : Nat)
  | isSameValue (value other : Nat)
  /-- Tells the name of a function. -/
  | functionName (function : Nat)
  /-- Tells the names of the members of an object. -/
  | memberNames (object : Nat)
  /-- Takes the cell of a member, and tells whether there is one. -/
  | member (object : Nat) (name : Name)
  /-- Asks for a parameter of the request. -/
  | parameter (key : String)
  /-- Tells how long the page has been running, in milliseconds. -/
  | clock
  /-- Makes a plain value. -/
  | literal (value : Literal)
  | newObject
  | newCell (value : Nat) (readonly : Bool)
  /-- Writes to a cell, and tells whether the write has been accepted. -/
  | write (cell value : Nat)
  /-- Makes a cell a member of an object unless there is one of that name, and tells whether it did. -/
  | addMember (object : Nat) (name : Name) (cell : Nat)
  /-- Makes a cell a member of an object, in place of one of the same name. -/
  | putMember (object : Nat) (name : Name) (cell : Nat)
  /-- Writes a text to the body of the response. -/
  | respond (text : String)
  | addHeader (name value : String)
  /-- Appends a line to the log. -/
  | log (line : String)
  /-- Fails, at the statement that makes the call or at some other place. -/
  | fail (refusal : Refusal) (place : Option Span)

/-- What a deed tells. -/
def Deed.Reply : Deed → Type
  | read _ => Value
  | isReadonly _ | isSameCell .. | isSameValue .. | member .. | write .. | addMember .. => Bool
  | functionName _ => Option Name
  | memberNames _ => List Name
  | parameter _ => Option String
  | clock => Float
  | literal _ | newObject | newCell .. | putMember .. | respond _ | addHeader .. | log _ => Unit
  | fail .. => Empty

/-- What a native function does, call by call. -/
inductive Routine where
  /-- Ends with a cell as the result. -/
  | answer (cell : Nat)
  /-- Does something, and goes on with what it tells. -/
  | act (deed : Deed) (next : deed.Reply → Routine)
  /-- Makes a native function that holds all cells at hand. -/
  | native (name : Name) (service : (arguments : Nat) → Routine) (next : Routine)

/-- A native function, apart from its name and the cells that it holds: a routine for each number of
arguments.  The cells of the arguments are in front of those that the function holds. -/
structure Service where
  routine : (arguments : Nat) → Routine

/-- A value that has no text is of the wrong kind. -/
theorem Value.ne_unsupported_of_toText {v : Value} {cause : Fault.Cause}
    (h : v.toText = .error cause) (feature : String) : cause ≠ .unsupported feature := by
  cases v with
  | object | function => cases h; exact nofun
  | boolean b => cases b <;> cases h
  | _ => cases h

namespace Routine

/-- Fails. -/
def fail (refusal : Refusal) : Routine := .act (.fail refusal none) nofun

/-- Ends with a new cell that holds a plain value. -/
def answerWith (value : Literal) : Routine :=
  .act (.literal value) fun _ => .act (.newCell 0 false) fun _ => .answer 0

/-- A call with the wrong number of arguments. -/
def refuse (name : String) (expected got : Nat) : Routine := fail ⟨.arity name expected got, nofun⟩

/-- Goes on with the text of the value in a cell. -/
def withText (cell : Nat) (next : String → Routine) : Routine :=
  .act (.read cell) fun (value : Value) =>
    match h : value.toText with
    | .ok text => next text
    | .error cause => fail ⟨cause, fun _ => Value.ne_unsupported_of_toText h _⟩

/-- Goes on with the texts of the values in cells, one behind another. -/
def withTexts : (cells : List Nat) → (next : String → Routine) → Routine
  | [], next => next ""
  | cell :: rest, next =>
    withText cell fun first => withTexts rest fun further => next (first ++ further)

/-- Writes the latest value to cells, in order, and fails at one that is read-only. -/
def fill : (cells : List Nat) → (next : Routine) → Routine
  | [], next => next
  | cell :: rest, next =>
    .act (.write cell 0) fun (written : Bool) =>
      if written then fill rest next else fail ⟨.host "argument is read-only", nofun⟩

end Routine

namespace Service

open Routine

/-! ## The functions of the standard host -/

/-- Writes a text to the body of the response. -/
def write : Service := ⟨fun
  | 1 => withText 0 fun text => .act (.respond text) fun _ => answerWith .empty
  | n => refuse "Response.Write" 1 n⟩

/-- Adds a header to the response. -/
def addHeader : Service := ⟨fun
  | 2 => withText 0 fun name => withText 1 fun value =>
    .act (.addHeader name value) fun _ => answerWith .empty
  | n => refuse "Response.AddHeader" 2 n⟩

/-- Looks up a parameter of the request. -/
def queryString : Service := ⟨fun
  | 1 => withText 0 fun key => .act (.parameter key) fun (found : Option String) =>
    answerWith (found.elim .empty .string)
  | n => refuse "Request.QueryString" 1 n⟩

/-- Tells how long the page has been running, in milliseconds. -/
def renderTime : Service := ⟨fun
  | 0 => .act .clock fun (time : Float) => answerWith (.number time)
  | n => refuse "RenderTime" 0 n⟩

/-! ## Functions of other hosts -/

/-- Appends the texts of all arguments as one line to the log. -/
def log : Service :=
  ⟨fun n => withTexts (List.range n) fun line => .act (.log line) fun _ => answerWith .empty⟩

/-- Writes a value to every argument. -/
def assign (value : Literal) : Service :=
  ⟨fun n => .act (.literal value) fun _ => fill (List.range n) (answerWith .empty)⟩

/-- Fails with the text of the first argument. -/
def raise : Service := ⟨fun
  | 0 => fail ⟨.host "", nofun⟩
  | _ + 1 => withText 0 fun message => fail ⟨.host message, nofun⟩⟩

/-- Makes a new object. -/
def create : Service :=
  ⟨fun _ => .act .newObject fun _ => .act (.newCell 0 false) fun _ => .answer 0⟩

/-- Names the kind of the first argument. -/
def kindName : Service := ⟨fun
  | 0 => answerWith (.string "none")
  | _ + 1 => .act (.read 0) fun (value : Value) => answerWith (.string value.kind.name)⟩

/-- Answers with a value, whatever the arguments. -/
def answer (value : Literal) : Service := ⟨fun _ => answerWith value⟩

end Service

end PageScript
