import PageScript.Machine.Run

/-!
# Machine/Host — what a host offers to pages

A host offers values under names.  They are installed in an outermost frame of their own, read-only
and closed for declarations, and the page runs in a frame that sees them: a script can read a host
value but neither replace it nor declare a name beside it.
-/

namespace PageScript

namespace Store

/-- A new native function as a value.  It holds no cells. -/
def newNative (s : Store) (name : String) (service : Service) : Value × Store :=
  let (id, s) := s.newFunction (.native (.ofString name) service [])
  (.function id, s)

/-- Makes a service a read-only member of the object that is offered as `owner`. -/
def offer (s : Store) (owner : String) (id : ObjectId) (name : String) (service : Service) :
    Store :=
  let (value, s) := s.newNative (owner ++ "." ++ name) service
  let (cell, s) := s.newCell value true
  s.putMember id (.ofString name) cell

/-- A new object, offered as `owner`, whose members are services. -/
def newServices (s : Store) (owner : String) (services : List (String × Service)) :
    Value × Store :=
  let (id, s) := s.newObject
  (.object id, services.foldl (fun s (name, service) => s.offer owner id name service) s)

end Store

/-- Values under names that differ in more than case, in the order in which they were offered. -/
abbrev Host : Type := Dictionary Value

namespace Host

/-- The host with a value under a name, in place of an earlier one of that name. -/
def offer (h : Host) (name : String) (value : Value) : Host := h.insert (.ofString name) value

/-- The value under a name, in any case. -/
def valueOf? (h : Host) (name : String) : Option Value := h.get? (foldCase name)

/-- The host of a page: `Response`, `Request` and `RenderTime`. -/
def standard (s : Store) : Host × Store :=
  let (response, s) := s.newServices "Response" [("Write", .write), ("AddHeader", .addHeader)]
  let (request, s) := s.newServices "Request" [("QueryString", .queryString)]
  let (renderTime, s) := s.newNative "RenderTime" .renderTime
  let host : Host := Dictionary.empty
  (((host.offer "Response" response).offer "Request" request).offer "RenderTime" renderTime, s)

/-- Declares host values in a frame, read-only. -/
def declareAll (frame : FrameId) : List (Name × Value) → Run Unit
  | [] => pure ()
  | (name, value) :: rest => do
    let _ ← Run.declare frame .readonly name value
    declareAll frame rest

/-- Makes the frame of the host values and closes it. -/
def install (h : Host) : Run FrameId := do
  let frame ← Run.step (·.pushRoot)
  declareAll frame h.entries
  Run.visiting frame fun frame => Run.change (·.mapFrames (·.freeze frame))
  pure frame

end Host

end PageScript
