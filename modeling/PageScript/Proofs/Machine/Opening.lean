import PageScript.Machine.Evaluation

/-!
# Proofs/Machine/Opening — the frame of a call before its procedure runs

`s.Opens home t` says of a state `t` that a call made in the state `s` has its frame, on top of all
others, and that nothing of its procedure has run.  `Opens` holds from the moment the frame is there
(`opens_enter`), through every change to that frame, to the state in which the body starts.
-/

namespace PageScript

/-- Changing the frame on top is putting another one there. -/
theorem Frames.modify_push (fs : Frames) (f : Frame) (change : Frame → Frame) :
    (fs.push f).2.modify ⟨fs.size⟩ change = (fs.push (change f)).2 := by
  have h : (fs.frames.push f).modify fs.frames.size change = fs.frames.push (change f) := by
    refine Array.ext (by simp) fun i h₁ h₂ => ?_
    simp only [Array.getElem_modify, Array.getElem_push]
    grind
  exact congrArg Frames.mk h

namespace State

/-- The frame that the next call gets. -/
def nextFrame (s : State) : FrameId := ⟨s.frames.size⟩

/-- A call that sees the names of `home` has its frame, and nothing of its procedure has run: on the
way there the frame gets its mark, the cell of the result and the parameters. -/
structure Opens (s : State) (home : FrameId) (t : State) : Prop where
  frames : ∃ f, t.frames = (s.frames.push f).2 ∧ f.parent = some home ∧ f.frozen = false
  objects : t.objects = []
  depth : t.depth = s.depth + 1
  limit : t.limit = s.limit
  store : t.store = s.store ∨ t.store = (s.store.newCell .empty false).2

variable {s t : State} {home : FrameId}

theorem opens_enter (s : State) (home : FrameId) :
    s.Opens home (State.enter { s with objects := [] } home).2 :=
  ⟨⟨_, rfl, rfl, rfl⟩, rfl, rfl, rfl, .inl rfl⟩

namespace Opens

/-- The new frame may change, but for its parent and its openness to declarations. -/
theorem modify (h : s.Opens home t) {change : Frame → Frame}
    (hparent : ∀ f, (change f).parent = f.parent) (hfrozen : ∀ f, (change f).frozen = f.frozen) :
    s.Opens home (t.mapFrames (·.modify s.nextFrame change)) := by
  obtain ⟨⟨f, hframes, hp, hf⟩, objects, depth, limit, store⟩ := h
  refine ⟨⟨change f, ?_, (hparent f).trans hp, (hfrozen f).trans hf⟩, objects, depth, limit, store⟩
  rw [frames_mapFrames, hframes]
  exact s.frames.modify_push f change

theorem bind (h : s.Opens home t) (name : Name) (cell : CellId) :
    s.Opens home (t.bind s.nextFrame name cell) :=
  h.modify (fun _ => rfl) fun _ => rfl

theorem setProcedure (h : s.Opens home t) (name : Name) :
    s.Opens home (t.mapFrames (·.setProcedure s.nextFrame name)) :=
  h.modify (fun _ => rfl) fun _ => rfl

/-- The cell of the result is the only one made on the way. -/
theorem define (h : s.Opens home t) (hstore : t.store = s.store) (name : Name) :
    s.Opens home (t.define s.nextFrame .replacing name .empty).2 := by
  have made : s.Opens home (t.newCell .empty false).2 :=
    ⟨h.frames, h.objects, h.depth, h.limit,
      .inr (congrArg (fun store => (store.newCell .empty false).2) hstore)⟩
  exact made.bind _ _

theorem bindAll : ∀ (pairs : List (Param × CellId)) {t : State}, s.Opens home t →
    s.Opens home (pairs.foldl (fun s' (p, cell) => s'.bind s.nextFrame p.name cell) t)
  | [], _, h => h
  | (p, cell) :: rest, _, h => bindAll rest (h.bind p.name cell)

/-- A name can be declared in the new frame in place of an earlier one. -/
theorem declarationFault? (h : s.Opens home t) (name : Name) :
    t.declarationFault? s.nextFrame .replacing name = none := by
  obtain ⟨f, hframes, -, hf⟩ := h.frames
  have hget : t.frames.get s.nextFrame = f := by
    rw [hframes]
    exact Frames.get_push_self
  simp [State.declarationFault?, hget, hf]

/-! ### The mark of the new frame -/

theorem live (h : s.Opens home t) : s.nextFrame.index < t.frames.size := by
  obtain ⟨f, hframes, -, -⟩ := h.frames
  rw [hframes, Frames.size_push]
  exact Nat.lt_succ_self _

theorem get_modify (h : s.Opens home t) (change : Frame → Frame) :
    (t.mapFrames (·.modify s.nextFrame change)).frames.get s.nextFrame =
      change (t.frames.get s.nextFrame) :=
  Frames.get_modify_self h.live

theorem procedure_setProcedure (h : s.Opens home t) (name : Name) :
    ((t.mapFrames (·.setProcedure s.nextFrame name)).frames.get s.nextFrame).procedure =
      some name :=
  congrArg Frame.procedure (h.get_modify fun f => { f with procedure := some name })

theorem procedure_bind (h : s.Opens home t) (name : Name) (cell : CellId) :
    ((t.bind s.nextFrame name cell).frames.get s.nextFrame).procedure =
      (t.frames.get s.nextFrame).procedure :=
  (congrArg Frame.procedure (h.get_modify (·.bind name cell))).trans rfl

theorem procedure_bindAll : ∀ (pairs : List (Param × CellId)) {t : State}, s.Opens home t →
    ((pairs.foldl (fun s' (p, cell) => s'.bind s.nextFrame p.name cell) t).frames.get
      s.nextFrame).procedure = (t.frames.get s.nextFrame).procedure
  | [], _, _ => rfl
  | (p, cell) :: rest, _, h =>
    (procedure_bindAll rest (h.bind p.name cell)).trans (h.procedure_bind p.name cell)

end Opens

end State

end PageScript
