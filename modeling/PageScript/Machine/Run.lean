import PageScript.Machine.State

/-!
# Machine/Run — steps that change the state and may fail

A `Run` takes the state on and ends in one of three ways: with a result, with a fault, or because
the bound on its steps was reached.  A fault leaves the state as it was where it arose, so what was
written before stays written.
-/

namespace PageScript

/-- How a run ends. -/
inductive Outcome (α : Type) where
  | done (value : α) (state : State)
  | failed (fault : Fault) (state : State)
  /-- The bound on the number of steps was reached. -/
  | exhausted

namespace Outcome

variable {α : Type}

/-- The state that a run ends in. -/
def state? : Outcome α → Option State
  | done _ s | failed _ s => some s
  | exhausted => none

/-- The fault that a run ends with. -/
def fault? : Outcome α → Option Fault
  | failed f _ => some f
  | done .. | exhausted => none

@[simp] theorem state?_done (a : α) (s : State) : (done a s).state? = some s := rfl

@[simp] theorem state?_failed (f : Fault) (s : State) : (failed f s : Outcome α).state? = some s :=
  rfl

@[simp] theorem state?_exhausted : (exhausted : Outcome α).state? = none := rfl

end Outcome

/-- What a run is about to do at a moment, as far as frames are concerned. -/
inductive Act where
  /-- Goes on without looking at a frame, or stops. -/
  | proceed
  /-- Reads or changes a frame, or looks something up from it. -/
  | visit (frame : FrameId)
  /-- Calls a procedure, in a new frame that sees the names of the frame `home`. -/
  | call (decl : Procedure) (home : FrameId)

/-- A moment of a run: the state that it has come to and what it is about to do. -/
structure Moment where
  act : Act
  state : State

/-- The moment at a state in which nothing is about to be done to a frame. -/
def State.moment (s : State) : Moment := ⟨.proceed, s⟩

@[simp] theorem State.state_moment (s : State) : s.moment.state = s := rfl

/-- Steps that change the state and end in an outcome.  `visits` says which moments a run from a
state comes through, its first and its last one included; it is only there to be reasoned about. -/
structure Run (α : Type) where
  run : State → Outcome α
  visits : State → Moment → Prop
  visits_start : ∀ s, visits s s.moment
  visits_stop : ∀ {s t}, (run s).state? = some t → visits s t.moment

namespace Run

variable {α β : Type}

instance : CoeFun (Run α) fun _ => State → Outcome α := ⟨run⟩

/-- Steps that come through some moments between their first and their last one. -/
@[inline] def through (run : State → Outcome α) (inner : State → Moment → Prop) : Run α where
  run := run
  visits s m := m = s.moment ∨ inner s m ∨ ∃ t, (run s).state? = some t ∧ m = t.moment
  visits_start _ := .inl rfl
  visits_stop h := .inr (.inr ⟨_, h, rfl⟩)

/-- A single step. -/
@[inline] def atomic (run : State → Outcome α) : Run α := through run fun _ _ => False

/-- No step at all. -/
@[inline] protected def pure (a : α) : Run α := atomic fun s => .done a s

/-- One run behind another, unless the first one does not end with a result. -/
@[inline] protected def bind (m : Run α) (next : α → Run β) : Run β :=
  through
    (fun s =>
      match m s with
      | .done a s => next a s
      | .failed f s => .failed f s
      | .exhausted => .exhausted)
    fun s moment => m.visits s moment ∨ ∃ a t, m s = .done a t ∧ (next a).visits t moment

instance : Monad Run where
  pure := Run.pure
  bind := Run.bind

/-- Gives up because the bound on the number of steps is reached. -/
def exhausted : Run α := atomic fun _ => .exhausted

/-- Fails. -/
def fail (cause : Fault.Cause) : Run α := atomic fun s => .failed (.of cause) s

/-- Fails at a place, if there is one. -/
def failAt (cause : Fault.Cause) (place : Option Span) : Run α :=
  atomic fun s => .failed ⟨cause, place⟩ s

/-- The result of a computation that may fail. -/
def ofExcept : Except Fault.Cause α → Run α
  | .ok a => atomic fun s => .done a s
  | .error cause => atomic fun s => .failed (.of cause) s

/-- The state. -/
@[inline] def state : Run State := atomic fun s => .done s s

/-- Looks something up in the state. -/
@[inline] def look (f : State → α) : Run α := atomic fun s => .done (f s) s

/-- Changes the state. -/
@[inline] def change (f : State → State) : Run Unit := atomic fun s => .done () (f s)

/-- Changes the state with a result. -/
@[inline] def step (f : State → α × State) : Run α :=
  atomic fun s =>
    match f s with
    | (a, s) => .done a s

/-- Announces what the run is about to do. -/
@[inline] def about (act : Act) (m : Run α) : Run α :=
  through m.run fun s moment => moment = ⟨act, s⟩ ∨ m.visits s moment

@[simp] theorem run_about (act : Act) (m : Run α) : (about act m).run = m.run := rfl

/-- Announces that the run is about to visit a frame. -/
@[inline] def visiting (frame : FrameId) (m : FrameId → Run α) : Run α :=
  about (.visit frame) (m frame)

/-- A new writable cell. -/
def newCell (value : Value) : Run CellId := step fun s => s.newCell value false

/-- The value in a cell. -/
@[inline] def read (id : CellId) : Run Value := look fun s => s.store.read id

/-- Writes to a cell, and fails with a cause if it is read-only. -/
def write (id : CellId) (value : Value) (refused : Fault.Cause) : Run Unit :=
  atomic fun s =>
    if s.store.isReadonly id then .failed (.of refused) s
    else .done () (s.put id value)

/-- Declares a name with a value in a frame. -/
def declare (id : FrameId) (how : State.Declaration) (name : Name) (value : Value) :
    Run CellId :=
  visiting id fun id =>
    atomic fun s =>
      match s.declarationFault? id how name with
      | some cause => .failed (.of cause) s
      | none =>
        match s.define id how name value with
        | (cell, s) => .done cell s

/-- Repeats a pass for as long as it answers that another one is due, at most `bound` times. -/
def repeatWhile : (bound : Nat) → (pass : Run Bool) → Run Unit
  | 0, _ => exhausted
  | bound + 1, pass => do
    if ← pass then repeatWhile bound pass

/-- Lets a fault that leaves the run carry a place, unless it has one. -/
@[inline] def within (place : Span) (m : Run α) : Run α :=
  through
    (fun s =>
      match m s with
      | .failed f s => .failed (f.leaving place) s
      | outcome => outcome)
    m.visits

/-- Runs with an object in front of those of the enclosing `with` blocks. -/
@[inline] def withObject (object : CellId) (m : Run α) : Run α :=
  through
    (fun s =>
      match m { s with objects := object :: s.objects } with
      | .done a s => .done a { s with objects := s.objects.tail }
      | .failed f s => .failed f { s with objects := s.objects.tail }
      | .exhausted => .exhausted)
    fun s => m.visits { s with objects := object :: s.objects }

/-- Runs without the objects of the enclosing `with` blocks, which come back behind the run. -/
@[inline] def withoutObjects (m : Run α) : Run α :=
  through
    (fun s =>
      let objects := s.objects
      match m { s with objects := [] } with
      | .done a s => .done a { s with objects := objects }
      | .failed f s => .failed f { s with objects := objects }
      | .exhausted => .exhausted)
    fun s => m.visits { s with objects := [] }

/-- Runs as a call, in a new frame that sees the names of another.  The frame is gone behind the
run, however it ends. -/
@[inline] def inCall (parent : FrameId) (m : FrameId → Run α) : Run α :=
  through
    (fun s =>
      if s.isFull then .failed (.of (.stackOverflow s.limit)) s
      else
        match s.enter parent with
        | (id, s) =>
          match m id s with
          | .done a s => .done a (s.leave id)
          | .failed f s => .failed f (s.leave id)
          | .exhausted => .exhausted)
    fun s moment =>
      s.isFull = false ∧ (m (s.enter parent).1).visits (s.enter parent).2 moment

end Run

end PageScript
