import PageScript.Machine.Store

/-!
# Machine/Frames — frames of variables

A frame binds names to cells and, except for an outermost one, has a parent whose names it sees as
well.  Frames are stacked: a new frame goes on top, and releasing a frame drops all frames above it.
There is a frame for the host's names, one for the page and one for every call that is running;
blocks and loops have none.
-/

namespace PageScript

/-- A frame of variables. -/
structure Frame where
  bindings : Dictionary CellId
  parent : Option FrameId
  /-- Whether a name has to be declared before it is used. -/
  explicit : Bool
  /-- Whether declarations are refused. -/
  frozen : Bool
  /-- The procedure that the frame is running. -/
  procedure : Option Name

namespace Frame

/-- A frame without names. -/
def fresh (parent : Option FrameId) (explicit : Bool) : Frame :=
  ⟨.empty, parent, explicit, false, none⟩

instance : Inhabited Frame := ⟨fresh none false⟩

/-- The frame with a name bound to a cell. -/
def bind (f : Frame) (name : Name) (cell : CellId) : Frame :=
  { f with bindings := f.bindings.insert name cell }

end Frame

/-- The frames in use, the oldest first. -/
structure Frames where
  frames : Array Frame

namespace Frames

/-- No frame at all. -/
def empty : Frames := ⟨#[]⟩

instance : Inhabited Frames := ⟨empty⟩

/-- The number of frames. -/
def size (fs : Frames) : Nat := fs.frames.size

/-- A frame. -/
def get (fs : Frames) (id : FrameId) : Frame := fs.frames[id.index]?.getD default

/-- The frames with one of them changed. -/
@[inline] def modify : Frames → FrameId → (Frame → Frame) → Frames
  | ⟨frames⟩, id, change => ⟨frames.modify id.index change⟩

/-- The frames with a new one on top. -/
@[inline] def push : Frames → Frame → FrameId × Frames
  | ⟨frames⟩, f => (⟨frames.size⟩, ⟨frames.push f⟩)

/-- A new frame without parent. -/
def pushRoot (fs : Frames) : FrameId × Frames := fs.push (.fresh none false)

/-- A new frame that sees the names of another, under the same rule on declarations. -/
def pushChild (fs : Frames) (parent : FrameId) : FrameId × Frames :=
  fs.push (.fresh (some parent) (fs.get parent).explicit)

/-- The frames without one of them and all that came after it. -/
def release : Frames → FrameId → Frames
  | ⟨frames⟩, id => ⟨frames.shrink id.index⟩

/-- The cell of a folded name in a frame or in the nearest ancestor that has it, looking at no more
than `bound` frames. -/
def lookupWithin (fs : Frames) (name : String) : (bound : Nat) → FrameId → Option CellId
  | 0, _ => none
  | bound + 1, id =>
    match (fs.get id).bindings.get? name with
    | some cell => some cell
    | none =>
      match (fs.get id).parent with
      | some parent => fs.lookupWithin name bound parent
      | none => none

/-- The cell of a folded name as seen from a frame. -/
def lookup (fs : Frames) (id : FrameId) (name : String) : Option CellId :=
  fs.lookupWithin name fs.size id

/-- The parent of a frame. -/
def parent (fs : Frames) (id : FrameId) : Option FrameId := (fs.get id).parent

/-- The frames with a name bound to a cell. -/
def bind (fs : Frames) (id : FrameId) (name : Name) (cell : CellId) : Frames :=
  fs.modify id (·.bind name cell)

/-- Switches the need for declarations on or off. -/
def setExplicit (fs : Frames) (id : FrameId) (on : Bool) : Frames :=
  fs.modify id fun f => { f with explicit := on }

/-- Refuses further declarations in a frame. -/
def freeze (fs : Frames) (id : FrameId) : Frames := fs.modify id fun f => { f with frozen := true }

/-- Marks a frame as running a procedure. -/
def setProcedure (fs : Frames) (id : FrameId) (name : Name) : Frames :=
  fs.modify id fun f => { f with procedure := some name }

/-! ## What is in a frame afterwards -/

section

variable {fs : Frames} {f : Frame} {change : Frame → Frame} {id other : FrameId}

@[simp] theorem size_push : (fs.push f).2.size = fs.size + 1 := Array.size_push f

@[simp] theorem size_modify : (fs.modify id change).size = fs.size := Array.size_modify

theorem size_release : (fs.release id).size = min id.index fs.size := Array.size_shrink

theorem get_of_size_le (h : fs.size ≤ id.index) : fs.get id = default := by
  have h : fs.frames[id.index]? = none := Array.getElem?_eq_none h
  simp only [get, h, Option.getD_none]

@[simp] theorem get_push_self : (fs.push f).2.get ⟨fs.size⟩ = f := by
  simp [get, push, size]

theorem get_push_of_lt (h : id.index < fs.size) : (fs.push f).2.get id = fs.get id := by
  have h : id.index ≠ fs.frames.size := Nat.ne_of_lt h
  simp only [get, push, Array.getElem?_push, if_neg h]

theorem get_modify_self (h : id.index < fs.size) :
    (fs.modify id change).get id = change (fs.get id) := by
  have h : fs.frames[id.index]? = some fs.frames[id.index] := Array.getElem?_eq_getElem h
  simp only [get, modify, Array.getElem?_modify, if_pos, h, Option.map_some, Option.getD_some]

theorem get_modify_of_ne (h : id ≠ other) : (fs.modify id change).get other = fs.get other := by
  have h : id.index ≠ other.index := fun h' => h (congrArg FrameId.mk h')
  simp only [get, modify, Array.getElem?_modify, if_neg h]

theorem get_release_of_lt (h : other.index < id.index) :
    (fs.release id).get other = fs.get other := by
  have kept : (fs.release id).frames[other.index]? = fs.frames[other.index]? := by
    change (fs.frames.shrink id.index)[other.index]? = _
    rw [← Array.getElem?_toList, Array.toList_shrink, List.getElem?_take_of_lt h,
      Array.getElem?_toList]
  simp only [get, kept]

/-- A name that cannot be seen from a frame is not bound in the frame itself. -/
theorem get?_of_lookup_eq_none {name : String} (h : fs.lookup id name = none) :
    (fs.get id).bindings.get? name = none := by
  rcases hsize : fs.size with _ | bound
  · have h : fs.frames[id.index]? = none :=
      Array.getElem?_eq_none (Nat.le_trans (Nat.le_of_eq hsize) (Nat.zero_le _))
    simp only [get, h]
    rfl
  · rw [lookup, hsize, lookupWithin] at h
    split at h
    · cases h
    · assumption

end

end Frames

end PageScript
