import PageScript.Proofs.Machine.Contents
import PageScript.Proofs.Machine.Settling
import PageScript.Proofs.Site.Prelude
import PageScript.Proofs.Syntax.Segments

/-!
# Proofs/Site/Verbatim — text and printed strings reach the response unchanged

A page of literal text and printed strings is a program that writes its segments, in order.  The host
of every page has a response in sight of it (`Host.responds_standard`), so what such a program writes
is the text it stands for, no more and no less, and nothing of it can fail.
-/

namespace PageScript

open Evaluator

variable {c : FrameId} {s : State} {text : String} {body row : List Stmt} {n : Nat}

/-! ## Texts written -/

/-- In a frame, the name of the response leads to an object whose member `Write` writes to the
response. -/
def State.Responds (s : State) (c : FrameId) : Prop :=
  ∃ cell object member function name held, s.lookup c Name.response.text = some cell ∧
    s.store.read cell = .object object ∧
      (s.store.members object).get? (Name.ofString "Write").text = some member ∧
        s.store.read member = .function function ∧
          s.store.function? function = some (.native name .write held)

/-- What was never made holds no reference. -/
theorem Store.lt_of_read {s : Store} {cell : CellId} {v : Value} (held : s.read cell = v)
    (reference : v.isReference = true) : cell.index < s.cells.size := by
  refine Nat.lt_of_not_le fun beyond => ?_
  have unmade : s.cells[cell.index]? = none := Array.getElem?_eq_none beyond
  rw [← held, Store.read, Store.cell, unmade] at reference
  exact absurd reference Bool.false_ne_true

/-- One state is left of another one by nothing but a text written to the response, and by new
cells. -/
structure State.Wrote (s t : State) (text : String) : Prop where
  response : t.world.response = s.world.response.write text
  frames : t.frames = s.frames
  cells : ∀ id : CellId, id.index < s.store.cells.size →
    id.index < t.store.cells.size ∧ t.store.cell id = s.store.cell id
  members : t.store.objects = s.store.objects
  functions : t.store.functions = s.store.functions

namespace State.Wrote

variable {s t u : State} {text text' : String}

theorem refl (s : State) : s.Wrote s "" :=
  ⟨by simp [Response.write], rfl, fun _ h => ⟨h, rfl⟩, rfl, rfl⟩

theorem trans (h : s.Wrote t text) (h' : t.Wrote u text') : s.Wrote u (text ++ text') where
  response := by
    rw [h'.response, h.response]
    simp only [Response.write, String.append_assoc]
  frames := h'.frames.trans h.frames
  cells id hid := by
    obtain ⟨ht, same⟩ := h.cells id hid
    obtain ⟨hu, same'⟩ := h'.cells id ht
    exact ⟨hu, same'.trans same⟩
  members := h'.members.trans h.members
  functions := h'.functions.trans h.functions

theorem read_eq (h : s.Wrote t text) {cell : CellId} {v : Value} (held : s.store.read cell = v)
    (reference : v.isReference = true) : t.store.read cell = v :=
  (congrArg Cell.value (h.cells cell (Store.lt_of_read held reference)).2).trans held

theorem responds (h : s.Wrote t text) (responds : s.Responds c) : t.Responds c := by
  obtain ⟨cell, object, member, function, name, held, found, hcell, hobject, hmember, stored⟩ := responds
  refine ⟨cell, object, member, function, name, held, ?_, h.read_eq hcell rfl, ?_,
    h.read_eq hmember rfl, ?_⟩
  · rwa [State.lookup, h.frames]
  · rwa [Store.members, h.members]
  · rwa [Store.function?, h.functions]

end State.Wrote

/-- The state after a piece of literal text: its value and the result of the call are left in cells
that nothing refers to. -/
def State.written (s : State) (piece : String) : State :=
  ((s.newCell (.string piece) false).2.mapResponse (·.write piece)).newCell .empty false |>.2

theorem State.wrote_written (s : State) (piece : String) : s.Wrote (s.written piece) piece where
  response := rfl
  frames := rfl
  cells id hid := by
    have grown : id.index < (s.store.newCell (.string piece) false).2.cells.size :=
      Nat.lt_of_lt_of_eq (Nat.lt_succ_of_lt hid) (Array.size_push _).symm
    refine ⟨Nat.lt_of_lt_of_eq (Nat.lt_succ_of_lt grown) (Array.size_push _).symm, ?_⟩
    exact (Store.cell_newCell_of_lt grown .empty false).trans
      (Store.cell_newCell_of_lt hid (.string piece) false)
  members := rfl
  functions := rfl

namespace Stmt

theorem Writes.split : ∀ {a b : List Stmt} {text : String}, Writes (a ++ b) text →
    ∃ x y, text = x ++ y ∧ Writes a x ∧ Writes b y
  | [], _, text, h => ⟨"", text, String.empty_append.symm, .nil, h⟩
  | _ :: _, _, _, @Writes.cons _ _ piece _ _ h => by
    obtain ⟨x, y, rfl, hx, hy⟩ := Writes.split h
    exact ⟨piece ++ x, y, String.append_assoc.symm, .cons hx, hy⟩

/-- Literal text declares nothing. -/
theorem Writes.declareBody (h : Writes row text) (s : State) :
    Stmt.declareBody c row s = .done () s := by
  induction h with
  | nil => rfl
  | cons _ ih => exact ih

/-- Literal text declares nothing, in blocks or not. -/
theorem Opened.declareBody (h : Opened body row) : ∀ {text : String}, Writes row text →
    ∀ s : State, Stmt.declareBody c body s = .done () s := by
  induction h with
  | nil => exact fun _ _ => rfl
  | cons _ ih =>
    intro text writes
    cases writes with
    | cons writes => exact ih writes
  | @block sp items body row _ ih =>
    intro text writes s
    obtain ⟨x, y, -, hx, hy⟩ := writes.split
    have inner : Stmt.declareBody c items s = .done () s := hx.declareBody s
    have block : Run.within (Stmt.block sp items).span ((Stmt.block sp items).declare c) s =
        .done () s := by
      rw [Run.within_eq_map]
      exact congrArg _ inner
    exact (Run.bind_of_done block).trans (ih hy s)

/-- A piece of literal text is written, if the bound allows it. -/
theorem executeWithin_writing (responds : s.Responds c) {place sp : Span} {piece : String}
    (hn : 4 ≤ n) : executeWithin n c (Parse.writing (.literal place (.string piece)) sp) s =
      .done () (s.written piece) := by
  obtain ⟨cell, object, member, function, name, held, found, hcell, hobject, hmember, stored⟩ := responds
  obtain ⟨k, rfl⟩ := Nat.exists_eq_add_of_le' hn
  have resolved : s.resolve c Name.response true = (some cell, s) := by
    simp only [State.resolve, found]
  have response : (ofBound (k + 1)).operandValue c (.var sp .response) s =
      .done (.object object) s := by
    simp only [operandValue, operand, Expr.isReference, ofBound, evaluateWithin, evaluateExpr,
      variableCell, Run.visiting, Run.about, Run.step, Run.look, Run.atomic, Run.through, Bind.bind, Run.bind, pure,
      Run.pure, resolved, Run.read, hcell, Store.bareCall?, if_true]
  have callee : (ofBound (k + 2)).calledValue c (.member sp (.var sp .response) (.ofString "Write"))
      s = .done (.function function) s := by
    refine (Run.bind_of_done (a := none) (t := s) rfl).trans ?_
    refine (Run.bind_of_done (a := member) (t := s) ?_).trans ?_
    · refine (Run.bind_of_done response).trans ?_
      refine (Run.bind_of_done (a := some member) (t := s) ?_).trans rfl
      exact congrArg (fun r => Outcome.done r s) hobject
    · exact congrArg (fun v => Outcome.done v s) hmember
  have text : ((s.newCell (.string piece) false).2.store.read
      (s.newCell (.string piece) false).1).toText = .ok piece :=
    congrArg (fun held : Cell => held.value.toText) (s.store.cell_newCell_self (.string piece) false)
  refine (Run.bind_of_done
    (a := (((s.newCell (.string piece) false).2.mapResponse (·.write piece)).newCell .empty false).1)
    (t := s.written piece) ?_).trans rfl
  refine (Run.bind_of_done callee).trans ?_
  refine (Run.bind_of_done (a := some (.native name .write held)) (t := s)
    (congrArg (fun r => Outcome.done r s) stored)).trans ?_
  refine (Run.bind_of_done (a := [(s.newCell (.string piece) false).1])
    (t := (s.newCell (.string piece) false).2) rfl).trans ?_
  exact Service.call_write held text

/-- A piece of literal text is written in its turn. -/
theorem within_writing (hn : 4 ≤ n) {place sp : Span} {piece : String} (responds : s.Responds c) :
    Run.within sp ((ofBound n).execute c (Parse.writing (.literal place (.string piece)) sp)) s =
      .done () (s.written piece) := by
  rw [Run.within_eq_map]
  exact congrArg _ (executeWithin_writing responds hn)

/-- Pieces of literal text are written, one behind the other. -/
theorem Writes.executeBody (hn : 4 ≤ n) (h : Writes row text) : ∀ {s : State}, s.Responds c →
    ∃ t, s.Wrote t text ∧ (ofBound n).executeBody c row s = .done () t := by
  induction h with
  | nil => exact fun _ => ⟨_, .refl _, rfl⟩
  | @cons place sp piece text rest _ ih =>
    intro s responds
    have wrote := s.wrote_written piece
    obtain ⟨t, wrote', run⟩ := ih (wrote.responds responds)
    exact ⟨t, wrote.trans wrote', (Run.bind_of_done (within_writing hn responds)).trans run⟩

/-- A program of literal text writes it, in blocks or not. -/
theorem Opened.executeBody (hn : 4 ≤ n) (h : Opened body row) : ∀ {text : String} {s : State},
    Writes row text → s.Responds c →
      ∃ t, s.Wrote t text ∧ (ofBound (n + 1)).executeBody c body s = .done () t := by
  induction h with
  | nil =>
    intro text s writes _
    cases writes
    exact ⟨s, .refl s, rfl⟩
  | cons _ ih =>
    intro text s writes responds
    cases writes with
    | @cons place sp piece text rest writes =>
      have wrote := s.wrote_written piece
      obtain ⟨t, wrote', run⟩ := ih writes (wrote.responds responds)
      refine ⟨t, wrote.trans wrote', Eq.trans ?_ run⟩
      exact Run.bind_of_done (within_writing (Nat.le_succ_of_le hn) responds)
  | @block sp items body row _ ih =>
    intro text s writes responds
    obtain ⟨x, y, rfl, hx, hy⟩ := writes.split
    obtain ⟨t, wrote, inner⟩ := hx.executeBody hn responds
    obtain ⟨u, wrote', run⟩ := ih hy (wrote.responds responds)
    have block : Run.within sp ((ofBound (n + 1)).execute c (.block sp items)) s = .done () t := by
      rw [Run.within_eq_map]
      exact congrArg _ inner
    exact ⟨u, wrote.trans wrote', (Run.bind_of_done block).trans run⟩

end Stmt

/-- The world of a page that has been asked something, with the objects of the standard host. -/
def standardWorld (request : Request) : World :=
  { World.new request with store := (Host.standard .empty).2 }

/-- A page of the standard host has the response in sight. -/
theorem Host.responds_standard (explicit : Bool) (request : Request) (limit : Nat) :
    ((Host.standard .empty).1.opened explicit (standardWorld request) limit).Responds ⟨1⟩ :=
  ⟨⟨3⟩, ⟨0⟩, ⟨0⟩, ⟨0⟩, Name.ofString "Response.Write", [], rfl, rfl, rfl, rfl, rfl⟩

/-- A program of literal text renders to it, against the standard host. -/
theorem render_opened (config : Configuration) (request : Request) (h : Stmt.Opened body row)
    (writes : Stmt.Writes row text) :
    ∃ world, renderPage (Host.standard .empty).1 config body (standardWorld request) =
      (.ok (), world) ∧ world.response = ⟨text, []⟩ := by
  obtain ⟨n, hn, hample⟩ : ∃ n, 4 ≤ n ∧ amplePasses = n + 1 := ⟨amplePasses - 1, by decide, rfl⟩
  obtain ⟨t, wrote, hexecute⟩ := h.executeBody hn writes
    (Host.responds_standard config.explicit request config.limit)
  have run : pageRun .ample (Host.standard .empty).1 config.explicit body
      (.start (standardWorld request) config.limit) = .done () t := by
    rw [pageRun_run, ample, hample]
    exact (Run.bind_of_done (h.declareBody writes _)).trans hexecute
  refine ⟨t.world, by rw [renderPage, run], ?_⟩
  rw [wrote.response]
  exact congrArg (Response.mk · []) String.empty_append

/-- **Text and printed strings reach the response verbatim.**  A page of segments, whatever they hold
and wherever delimiters are cut in pieces, is read, rendered without a fault, and leaves what its
segments stand for, in order, and no header. -/
theorem render_page (segments : List Segment) (h : Segment.Alternate segments)
    (config : Configuration) (request : Request) :
    ∃ body world, programOf? .markup (Segment.page segments) = .ok body ∧
      renderPage (Host.standard .empty).1 config body (standardWorld request) = (.ok (), world) ∧
        world.response = ⟨Segment.contents segments, []⟩ := by
  obtain ⟨body, row, hbody, opened, writes⟩ := Segment.programOf?_page h
  obtain ⟨world, hrender, hresponse⟩ := render_opened config request opened writes
  exact ⟨body, world, hbody, hrender, hresponse⟩

/-- Where segments meet, delimiters may be cut in pieces: here a text ends with the first half of
one, a string holds one, and a text starts with the second half of another. -/
theorem render_page_joints :
    ∃ body world, programOf? .markup "<<%= \"%> \"\"\" %>!-- %>" = .ok body ∧
      renderPage (Host.standard .empty).1 { Configuration.standard with explicit := true } body
        (standardWorld .empty) = (.ok (), world) ∧
        world.response = ⟨"<%> \"!-- %>", []⟩ :=
  render_page [.text "<" (by decide) (by decide), .print "%> \"" (by decide),
    .text "!-- %>" (by decide) (by decide)] (by decide) _ .empty

end PageScript
