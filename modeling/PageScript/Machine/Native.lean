import PageScript.Machine.Run

/-!
# Machine/Native — running native functions

A native function receives the cells of its arguments, so it can write to a variable of its caller.
Its routine is run deed by deed.  A routine that names a register in which there is nothing, or a value
where an object is needed, fails.
-/

namespace PageScript

/-- What a routine has at hand, the latest first. -/
structure Registers where
  cells : List CellId
  values : List Value

/-- The object that a value refers to. -/
def Value.object? : Value → Option ObjectId
  | object id => some id
  | _ => none

/-- The name of the function that a value refers to. -/
def Store.nameOf? (s : Store) : Value → Option Name
  | .function id => (s.function? id).map Callable.name
  | _ => none

/-- What has to be there. -/
def Run.required {α : Type} : Option α → Run α
  | some a => pure a
  | none => Run.fail (.host "nothing at hand")

namespace Registers

/-- The cell in a register. -/
def cell (r : Registers) (register : Nat) : Run CellId := Run.required r.cells[register]?

/-- The value in a register. -/
def value (r : Registers) (register : Nat) : Run Value := Run.required r.values[register]?

/-- The object that the value in a register refers to. -/
def object (r : Registers) (register : Nat) : Run ObjectId :=
  Run.required (r.values[register]?.bind Value.object?)

/-- The registers with one more cell. -/
def withCell (r : Registers) (cell : CellId) : Registers := { r with cells := cell :: r.cells }

/-- The registers with one more value. -/
def withValue (r : Registers) (value : Value) : Registers := { r with values := value :: r.values }

end Registers

/-- What a deed does, with what it tells and the registers behind it. -/
def Deed.perform : (deed : Deed) → Registers → Run (deed.Reply × Registers)
  | read cell, r => do
    let cell ← r.cell cell
    let value ← Run.read cell
    pure (value.sight, r.withValue value)
  | isReadonly cell, r => do
    let cell ← r.cell cell
    let readonly ← Run.look (·.store.isReadonly cell)
    pure (readonly, r)
  | isSameCell cell other, r => do
    let cell ← r.cell cell
    let other ← r.cell other
    pure (decide (cell = other), r)
  | isSameValue value other, r => do
    let value ← r.value value
    let other ← r.value other
    pure (value.isSame other, r)
  | functionName function, r => do
    let function ← r.value function
    let name ← Run.look (·.store.nameOf? function)
    pure (name, r)
  | memberNames object, r => do
    let object ← r.object object
    let names ← Run.look fun s => (s.store.members object).names
    pure (names, r)
  | member object name, r => do
    let object ← r.object object
    match ← Run.look fun s => (s.store.members object).get? name.text with
    | some cell => pure (true, r.withCell cell)
    | none => pure (false, r)
  | parameter key, r => do
    let found ← Run.look (·.world.request.parameter? key)
    pure (found, r)
  | clock, r => do
    let time ← Run.step State.tick
    pure (time, r)
  | literal value, r => pure ((), r.withValue (.ofLiteral value))
  | newObject, r => do
    let id ← Run.step (·.newObject)
    pure ((), r.withValue (.object id))
  | newCell value readonly, r => do
    let value ← r.value value
    let cell ← Run.step (·.newCell value readonly)
    pure ((), r.withCell cell)
  | write cell value, r => do
    let cell ← r.cell cell
    let value ← r.value value
    let written ← Run.step (·.write cell value)
    pure (written, r)
  | addMember object name cell, r => do
    let object ← r.object object
    let cell ← r.cell cell
    let added ← Run.step (·.addMember object name cell)
    pure (added, r)
  | putMember object name cell, r => do
    let object ← r.object object
    let cell ← r.cell cell
    Run.change (·.putMember object name cell)
    pure ((), r)
  | respond text, r => do
    Run.change (·.mapResponse (·.write text))
    pure ((), r)
  | addHeader name value, r => do
    Run.change (·.mapResponse (·.addHeader name value))
    pure ((), r)
  | log line, r => do
    Run.change (·.addLine line)
    pure ((), r)
  | fail refusal place, _ => Run.failAt refusal.cause place

/-- A new native function. -/
def Run.newNative (name : Name) (service : Service) (held : List CellId) : Run FunctionId :=
  step (·.newFunction (.native name service held))

/-- What a routine does. -/
def Routine.run : Routine → Registers → Run CellId
  | answer cell, r => r.cell cell
  | act deed next, r => do
    let (reply, r) ← deed.perform r
    (next reply).run r
  | native name service next, r => do
    let id ← Run.newNative name ⟨service⟩ r.cells
    next.run (r.withValue (.function id))

/-- What a native function that holds some cells does with its arguments. -/
def Service.call (service : Service) (held args : List CellId) : Run CellId :=
  (service.routine args.length).run ⟨args ++ held, []⟩

end PageScript
