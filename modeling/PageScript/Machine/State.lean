import PageScript.Machine.Frames

/-!
# Machine/State — the state of a running script

The state is what a script can change: the world (the store and what was written to the outside),
the frames of variables, the objects of the enclosing `with` blocks and the number of calls that are
running.
-/

namespace PageScript

/-- What a page has written. -/
structure Response where
  body : String
  /-- The headers, in the order in which they were added. -/
  headers : List (String × String)
deriving DecidableEq

namespace Response

/-- Nothing written yet. -/
def empty : Response := ⟨"", []⟩

instance : Inhabited Response := ⟨empty⟩

/-- The response with a text behind its body. -/
def write : Response → String → Response
  | ⟨body, headers⟩, text => ⟨body ++ text, headers⟩

/-- The response with one more header. -/
def addHeader (r : Response) (name value : String) : Response :=
  { r with headers := r.headers ++ [(name, value)] }

end Response

/-- What a page is asked. -/
structure Request where
  /-- The parameters under their folded keys, the latest first. -/
  query : List (String × String)
  /-- What a clock that stands still shows, in milliseconds. -/
  elapsed : Float

namespace Request

/-- A request without parameters. -/
def empty : Request := ⟨[], 0⟩

instance : Inhabited Request := ⟨empty⟩

/-- The request with one more parameter, which hides an earlier one with the same key. -/
def withQuery (r : Request) (key value : String) : Request :=
  { r with query := (foldCase key, value) :: r.query }

/-- A request with parameters, the later ones hiding earlier ones with the same key. -/
def ofQuery (query : List (String × String)) : Request :=
  query.foldl (fun r (key, value) => r.withQuery key value) .empty

/-- The parameter with a key, in any case. -/
def parameter? (r : Request) (key : String) : Option String := r.query.lookup (foldCase key)

end Request

/-- What scripts share with the outside: the store, the response being written, the log, the request
and the clock. -/
structure World where
  store : Store
  response : Response
  /-- The lines of the log, the latest first. -/
  log : List String
  request : Request
  /-- What the clock will show each time that it is asked: how long the page has been running, in
  milliseconds. -/
  clock : Nat → Float

namespace World

/-- A world in which nothing has happened, and in which the clock stands still. -/
def new (request : Request) : World := ⟨.empty, .empty, [], request, fun _ => request.elapsed⟩

instance : Inhabited World := ⟨new .empty⟩

end World

/-- The state of a running script. -/
structure State where
  world : World
  frames : Frames
  /-- The objects of the enclosing `with` blocks, the innermost first. -/
  objects : List CellId
  /-- The number of calls that are running. -/
  depth : Nat
  /-- The largest number of calls allowed at a time. -/
  limit : Nat

namespace State

/-- The limit on nested calls unless another is set. -/
def defaultLimit : Nat := 1024

/-- The state before any frame is there. -/
def start (world : World) (limit : Nat) : State := ⟨world, .empty, [], 0, limit⟩

/-- The cells, objects and functions. -/
def store (s : State) : Store := s.world.store

/-- Changes the store, with a result. -/
@[inline] def stepStore : State → (Store → α × Store) → α × State
  | ⟨⟨store, response, log, request, clock⟩, frames, objects, depth, limit⟩, step =>
    let (result, store) := step store
    (result, ⟨⟨store, response, log, request, clock⟩, frames, objects, depth, limit⟩)

/-- Changes the store. -/
@[inline] def mapStore : State → (Store → Store) → State
  | ⟨⟨store, response, log, request, clock⟩, frames, objects, depth, limit⟩, change =>
    ⟨⟨change store, response, log, request, clock⟩, frames, objects, depth, limit⟩

/-- Changes the frames, with a result. -/
@[inline] def stepFrames : State → (Frames → α × Frames) → α × State
  | ⟨world, frames, objects, depth, limit⟩, step =>
    let (result, frames) := step frames
    (result, ⟨world, frames, objects, depth, limit⟩)

/-- Changes the frames. -/
@[inline] def mapFrames : State → (Frames → Frames) → State
  | ⟨world, frames, objects, depth, limit⟩, change => ⟨world, change frames, objects, depth, limit⟩

/-- Changes the response. -/
@[inline] def mapResponse : State → (Response → Response) → State
  | ⟨⟨store, response, log, request, clock⟩, frames, objects, depth, limit⟩, change =>
    ⟨⟨store, change response, log, request, clock⟩, frames, objects, depth, limit⟩

/-- The state with one more line in the log. -/
def addLine : State → String → State
  | ⟨⟨store, response, log, request, clock⟩, frames, objects, depth, limit⟩, line =>
    ⟨⟨store, response, line :: log, request, clock⟩, frames, objects, depth, limit⟩

/-- Asks the clock. -/
def tick : State → Float × State
  | ⟨⟨store, response, log, request, clock⟩, frames, objects, depth, limit⟩ =>
    (clock 0, ⟨⟨store, response, log, request, fun n => clock (n + 1)⟩, frames, objects, depth, limit⟩)

section

variable {α : Type} {s : State}

@[simp] theorem frames_stepStore {f : Store → α × Store} :
    (s.stepStore f).2.frames = s.frames := rfl

@[simp] theorem objects_stepStore {f : Store → α × Store} :
    (s.stepStore f).2.objects = s.objects := rfl

@[simp] theorem depth_stepStore {f : Store → α × Store} : (s.stepStore f).2.depth = s.depth := rfl

@[simp] theorem limit_stepStore {f : Store → α × Store} : (s.stepStore f).2.limit = s.limit := rfl

@[simp] theorem store_stepStore {f : Store → α × Store} :
    (s.stepStore f).2.store = (f s.store).2 := rfl

@[simp] theorem frames_mapFrames {f : Frames → Frames} : (s.mapFrames f).frames = f s.frames := rfl

@[simp] theorem objects_mapFrames {f : Frames → Frames} : (s.mapFrames f).objects = s.objects := rfl

@[simp] theorem depth_mapFrames {f : Frames → Frames} : (s.mapFrames f).depth = s.depth := rfl

@[simp] theorem limit_mapFrames {f : Frames → Frames} : (s.mapFrames f).limit = s.limit := rfl

@[simp] theorem store_mapFrames {f : Frames → Frames} : (s.mapFrames f).store = s.store := rfl

end

/-- The state with a new cell. -/
def newCell (s : State) (value : Value) (readonly : Bool) : CellId × State :=
  s.stepStore (·.newCell value readonly)

/-- The state with a new object without members. -/
def newObject (s : State) : ObjectId × State := s.stepStore Store.newObject

/-- The state with a new function. -/
def newFunction (s : State) (f : Callable) : FunctionId × State := s.stepStore (·.newFunction f)

/-- The state with another value in a cell. -/
def put (s : State) (id : CellId) (value : Value) : State := s.mapStore (·.put id value)

/-- The state with another value in a cell unless it is read-only, and whether it is not. -/
def write (s : State) (id : CellId) (value : Value) : Bool × State :=
  if s.store.isReadonly id then (false, s) else (true, s.put id value)

/-- The state with a cell as a member of an object, in place of one of the same name. -/
def putMember (s : State) (id : ObjectId) (name : Name) (cell : CellId) : State :=
  s.mapStore (·.putMember id name cell)

/-- The state with a cell as a member of an object unless there is one of that name, and whether there
was none. -/
def addMember (s : State) (id : ObjectId) (name : Name) (cell : CellId) : Bool × State :=
  s.stepStore (·.addMember id name cell)

/-- The member of an object, made empty if there is none. -/
def memberOrNew (s : State) (id : ObjectId) (name : Name) : CellId × State :=
  s.stepStore (·.memberOrNew id name)

/-- The state with a new frame without parent. -/
def pushRoot (s : State) : FrameId × State := s.stepFrames Frames.pushRoot

/-- The state with a new frame that sees the names of another. -/
def pushChild (s : State) (parent : FrameId) : FrameId × State := s.stepFrames (·.pushChild parent)

/-- The state without a frame and all that came after it. -/
def release (s : State) (id : FrameId) : State := s.mapFrames (·.release id)

/-- The state with a name bound to a cell in a frame. -/
def bind (s : State) (id : FrameId) (name : Name) (cell : CellId) : State :=
  s.mapFrames (·.bind id name cell)

/-- The cell of a folded name as seen from a frame. -/
def lookup (s : State) (id : FrameId) (name : String) : Option CellId := s.frames.lookup id name

/-- The cell of a name as seen from a frame.  A name that is nowhere is declared in the frame as an
empty variable if `mayDeclare` is set and the frame allows it. -/
def resolve (s : State) (id : FrameId) (name : Name) (mayDeclare : Bool) :
    Option CellId × State :=
  match s.lookup id name.text with
  | some cell => (some cell, s)
  | none =>
    let frame := s.frames.get id
    if !mayDeclare || frame.explicit || frame.frozen then (none, s)
    else
      let (cell, s) := s.newCell .empty false
      (some cell, s.bind id name cell)

/-- How a name may be declared. -/
inductive Declaration where
  /-- In place of an earlier declaration in the frame. -/
  | replacing
  /-- For the first time in the frame. -/
  | unique
  /-- For the first time in the frame, and for good. -/
  | readonly
deriving DecidableEq

/-- Why a name cannot be declared in a frame, if it cannot. -/
def declarationFault? (s : State) (id : FrameId) (how : Declaration) (name : Name) :
    Option Fault.Cause :=
  let frame := s.frames.get id
  if frame.frozen then some (.readonlyWrite name.text)
  else if how ≠ .replacing ∧ (frame.bindings.get? name.text).isSome then
    some (.redeclared name.text)
  else none

/-- Binds a name to a new cell in a frame. -/
def define (s : State) (id : FrameId) (how : Declaration) (name : Name) (value : Value) :
    CellId × State :=
  let (cell, s) := s.newCell value (how == .readonly)
  (cell, s.bind id name cell)

/-- A name is only made where it could have been declared, and then it is declared there. -/
theorem resolve_cases (s : State) (id : FrameId) (name : Name) (mayDeclare : Bool) :
    (s.resolve id name mayDeclare).2 = s ∨
      s.declarationFault? id .unique name = none ∧
        (s.resolve id name mayDeclare).2 = (s.define id .unique name .empty).2 := by
  unfold resolve
  split
  · exact .inl rfl
  · rename_i unseen
    dsimp only
    split
    · exact .inl rfl
    · rename_i allowed
      have unbound := Frames.get?_of_lookup_eq_none unseen
      refine .inr ⟨?_, rfl⟩
      simp_all [declarationFault?]

/-- Whether no further call may start. -/
def isFull (s : State) : Bool := s.limit ≤ s.depth

/-- Enters a call: a new frame that sees the names of another. -/
def enter : State → (parent : FrameId) → FrameId × State
  | ⟨world, frames, objects, depth, limit⟩, parent =>
    let (id, frames) := frames.pushChild parent
    (id, ⟨world, frames, objects, depth + 1, limit⟩)

/-- Leaves the call with a frame. -/
def leave : State → FrameId → State
  | ⟨world, frames, objects, depth, limit⟩, id =>
    ⟨world, frames.release id, objects, depth - 1, limit⟩

end State

end PageScript
