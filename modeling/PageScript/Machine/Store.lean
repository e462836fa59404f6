import PageScript.Dictionary
import PageScript.Machine.Routine
import PageScript.Syntax.Stmt.Basic

/-!
# Machine/Store — cells, objects and functions

Every variable, constant and member is a cell: a place that holds a value and that several names
may share.  A cell is writable or read-only from its creation.  Objects are dictionaries of cells;
functions are native services or procedures of the script.  Values refer to objects and functions
by number, so two references are the same exactly if their numbers are.

The operations take the store apart before they change one of its arrays: an array that nothing else
refers to is updated in place.
-/

namespace PageScript

/-- A reference to a cell. -/
structure CellId where
  index : Nat
deriving DecidableEq, Inhabited

/-- A reference to a frame of variables. -/
structure FrameId where
  index : Nat
deriving DecidableEq, Inhabited

/-- A place for a value. -/
structure Cell where
  value : Value
  /-- Whether every write is refused. -/
  readonly : Bool
deriving Inhabited

/-- A function: native, with the cells that it holds, or a procedure of the script with the frame it
was declared in. -/
inductive Callable where
  | native (name : Name) (service : Service) (held : List CellId)
  | script (decl : Procedure) (frame : FrameId)

/-- The name that a function was made with. -/
def Callable.name : Callable → Name
  | native name _ _ => name
  | script decl _ => decl.name

/-- All cells, objects and functions made so far. -/
structure Store where
  cells : Array Cell
  objects : Array (Dictionary CellId)
  functions : Array Callable

namespace Store

/-- The store without anything in it. -/
def empty : Store := ⟨#[], #[], #[]⟩

instance : Inhabited Store := ⟨empty⟩

/-- The store with a new cell. -/
def newCell : Store → (value : Value) → (readonly : Bool) → CellId × Store
  | ⟨cells, objects, functions⟩, value, readonly =>
    (⟨cells.size⟩, ⟨cells.push ⟨value, readonly⟩, objects, functions⟩)

/-- The store with a new object without members. -/
def newObject : Store → ObjectId × Store
  | ⟨cells, objects, functions⟩ => (⟨objects.size⟩, ⟨cells, objects.push .empty, functions⟩)

/-- The store with a new function. -/
def newFunction : Store → Callable → FunctionId × Store
  | ⟨cells, objects, functions⟩, f => (⟨functions.size⟩, ⟨cells, objects, functions.push f⟩)

/-- What a cell holds. -/
def cell (s : Store) (id : CellId) : Cell := s.cells[id.index]?.getD default

/-- The value in a cell. -/
def read (s : Store) (id : CellId) : Value := (s.cell id).value

/-- Whether a cell refuses writes. -/
def isReadonly (s : Store) (id : CellId) : Bool := (s.cell id).readonly

/-- The store with another value in a cell. -/
def put : Store → CellId → Value → Store
  | ⟨cells, objects, functions⟩, id, value =>
    ⟨cells.modify id.index fun c => { c with value := value }, objects, functions⟩

/-- The store after a write to a cell; there is none if the cell is read-only. -/
def write? (s : Store) (id : CellId) (value : Value) : Option Store :=
  if s.isReadonly id then none else some (s.put id value)

/-- The members of an object. -/
def members (s : Store) (id : ObjectId) : Dictionary CellId := s.objects[id.index]?.getD .empty

/-- The store with a cell as a member of an object, in place of one of the same name. -/
def putMember : Store → ObjectId → Name → CellId → Store
  | ⟨cells, objects, functions⟩, id, name, cell =>
    ⟨cells, objects.modify id.index fun d => d.insert name cell, functions⟩

/-- The store with a cell as a member of an object unless there is one of that name, and whether there
was none. -/
def addMember (s : Store) (id : ObjectId) (name : Name) (cell : CellId) : Bool × Store :=
  match (s.members id).get? name.text with
  | some _ => (false, s)
  | none => (true, s.putMember id name cell)

/-- The member of an object, made empty if there is none. -/
def memberOrNew (s : Store) (id : ObjectId) (name : Name) : CellId × Store :=
  match (s.members id).get? name.text with
  | some cell => (cell, s)
  | none =>
    let (cell, s) := s.newCell .empty false
    (cell, s.putMember id name cell)

/-- A function. -/
def function? (s : Store) (id : FunctionId) : Option Callable := s.functions[id.index]?

/-- The name of a function. -/
def functionName (s : Store) (id : FunctionId) : Name :=
  match s.function? id with
  | some f => f.name
  | none => default

/-- A value as a user sees it. -/
def display (s : Store) (v : Value) : String :=
  match v with
  | .object _ => "[object]"
  | .function id => "[function " ++ (s.functionName id).text ++ "]"
  | v => v.toText.toOption.getD ""

/-- The names of an object's members as a list. -/
def taggedMembers (s : Store) (id : ObjectId) : String :=
  "[" ++ String.intercalate ", " ((s.members id).names.map Name.tagged) ++ "]"

/-- A value with its kind in front. -/
def tagged (s : Store) (v : Value) : String :=
  let of (content : String) := v.kind.name ++ "(" ++ content ++ ")"
  match v with
  | .string text => of (Text.quote text)
  | .number value => of (Number.tagged value)
  | .boolean value => of (toString value)
  | .empty | .null | .nothing => v.kind.name
  | .object id => of (s.taggedMembers id)
  | .function id => of (s.functionName id).tagged

end Store

end PageScript
