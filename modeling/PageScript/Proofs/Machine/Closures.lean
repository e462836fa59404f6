import PageScript.Proofs.Machine.Locality

/-!
# Proofs/Machine/Closures — no procedure outlives the frame it was declared in

A procedure is kept in the store together with the frame that its names are looked up from.  Frames
are dropped when calls end and their numbers are used again, but a procedure is only declared in a
frame that runs no procedure, so its frame is below those of all calls
(`State.Sound`).  `Evaluator.sound_ofBound` follows this invariant through the run of a page.
-/

namespace PageScript

/-! ## The functions of the store -/

namespace Store

variable {s : Store}

theorem function?_memberOrNew {id : ObjectId} {name : Name} (fid : FunctionId) :
    (s.memberOrNew id name).2.function? fid = s.function? fid := by
  unfold memberOrNew
  split
  · rfl
  · rfl

/-- A new function is there afterwards, with those that were there before. -/
theorem function?_newFunction {f g : Callable} {fid : FunctionId} :
    (s.newFunction f).2.function? fid = some g ↔
      fid.index = s.functions.size ∧ f = g ∨ s.function? fid = some g := by
  change (s.functions.push f)[fid.index]? = _ ↔ _ ∨ s.functions[fid.index]? = _
  rw [Array.getElem?_push]
  split
  · rename_i h
    simp [h]
  · rename_i h
    simp [h]

end Store

namespace Frames.Touches

variable {fs gs : Frames} {c id : FrameId}

/-- The parent of a frame stays, also that of the frame that is touched. -/
theorem parent (h : fs.Touches c gs) (live : id.index < fs.size) :
    (gs.get id).parent = (fs.get id).parent := by
  by_cases hid : id = c
  · subst hid
    exact (h.own live).parent
  · rw [h.others id hid live]

/-- So does the mark of a running procedure. -/
theorem procedure (h : fs.Touches c gs) (live : id.index < fs.size) :
    (gs.get id).procedure = (fs.get id).procedure := by
  by_cases hid : id = c
  · subst hid
    exact (h.own live).procedure
  · rw [h.others id hid live]

end Frames.Touches

/-! ## The invariant -/

namespace State

/-- The functions of a state are still there in another. -/
def Recalls (s t : State) : Prop :=
  ∀ id f, s.store.function? id = some f → t.store.function? id = some f

/-- The first `base` frames are those from before all calls.  Every procedure was declared in one of
these, every frame above hangs below the frame that a procedure was declared in, and parents are
older than their children. -/
structure Sound (s : State) (base : Nat) : Prop where
  base_le : base ≤ s.frames.size
  homes : ∀ id decl home, s.store.function? id = some (.script decl home) →
    home.index < base ∧ (s.frames.get home).procedure = none
  calls : ∀ id : FrameId, base ≤ id.index → id.index < s.frames.size →
    ∃ fid decl home, s.store.function? fid = some (.script decl home) ∧
      (s.frames.get id).parent = some home
  rooted : s.frames.Rooted

/-- A frame that something may run in: one from before all calls, or one that runs a procedure. -/
structure Ready (s : State) (base : Nat) (c : FrameId) : Prop where
  sound : s.Sound base
  live : c.index < s.frames.size
  running : base ≤ c.index → (s.frames.get c).procedure.isSome

/-- What a run in a frame leads to: it touches that frame only, forgets no function and keeps the
invariant. -/
structure Follows (s : State) (base : Nat) (c : FrameId) (t : State) : Prop where
  touches : s.frames.Touches c t.frames
  recalls : s.Recalls t
  sound : s.Ready base c → t.Sound base

variable {base : Nat} {c home : FrameId} {s t u : State}

theorem Opens.functions (h : s.Opens home t) (id : FunctionId) :
    t.store.function? id = s.store.function? id := by
  obtain hstore | hstore := h.store
  · rw [hstore]
  · rw [hstore]
    rfl

theorem Opens.nextFrame_live (h : s.Opens home t) : s.nextFrame.index < t.frames.size := by
  obtain ⟨f, frames, -, -⟩ := h.frames
  rw [frames, Frames.size_push]
  exact Nat.lt_succ_self _

namespace Sound

/-- The home of a procedure is live. -/
theorem home_live (h : s.Sound base) {id : FunctionId} {decl : Procedure}
    (stored : s.store.function? id = some (.script decl home)) : home.index < s.frames.size :=
  Nat.lt_of_lt_of_le (h.homes id decl home stored).1 h.base_le

/-- The invariant survives a change of one frame, as long as the functions stay. -/
theorem touch (h : s.Sound base) (touches : s.frames.Touches c t.frames)
    (size : t.frames.size = s.frames.size)
    (functions : ∀ id, t.store.function? id = s.store.function? id) : t.Sound base where
  base_le := size ▸ h.base_le
  homes id decl home stored := by
    rw [functions] at stored
    obtain ⟨below, idle⟩ := h.homes id decl home stored
    exact ⟨below, (touches.procedure (h.home_live stored)).trans idle⟩
  calls id above live := by
    rw [size] at live
    obtain ⟨fid, decl, home, stored, parent⟩ := h.calls id above live
    exact ⟨fid, decl, home, (functions fid).trans stored, (touches.parent live).trans parent⟩
  rooted id parent live hparent := by
    rw [size] at live
    rw [touches.parent live] at hparent
    exact h.rooted id parent live hparent

/-- A procedure may be declared in a frame that runs none. -/
theorem newFunction (h : s.Sound base) {f : Callable} (idle : ∀ decl home,
      f = .script decl home → home.index < base ∧ (s.frames.get home).procedure = none) :
    (s.newFunction f).2.Sound base where
  base_le := h.base_le
  homes id decl' home stored := by
    obtain ⟨-, same⟩ | stored := Store.function?_newFunction.mp stored
    · exact idle decl' home same
    · exact h.homes id decl' home stored
  calls id above live := by
    obtain ⟨fid, decl', home, stored, parent⟩ := h.calls id above live
    exact ⟨fid, decl', home, Store.function?_newFunction.mpr (.inr stored), parent⟩
  rooted := h.rooted

/-- The frame of a call hangs below the home of its procedure. -/
theorem opens (h : s.Sound base) (opens : s.Opens home t) {fid : FunctionId} {decl : Procedure}
    (stored : s.store.function? fid = some (.script decl home)) : t.Sound base := by
  have functions := opens.functions
  have spares := opens.spares
  obtain ⟨f, frames, hparent, -⟩ := opens.frames
  have top : t.frames.get s.nextFrame = f := frames ▸ Frames.get_push_self
  have cases_live (id : FrameId) (live : id.index < t.frames.size) :
      id = s.nextFrame ∨ id.index < s.frames.size := by
    rw [frames, Frames.size_push] at live
    obtain live | heq := Nat.lt_succ_iff_lt_or_eq.mp live
    · exact .inr live
    · exact .inl (congrArg FrameId.mk heq)
  refine ⟨Nat.le_trans h.base_le spares.size, ?_, ?_, ?_⟩
  · intro id decl' home' stored'
    rw [functions] at stored'
    rw [spares.get home' (h.home_live stored')]
    exact h.homes id decl' home' stored'
  · intro id above live
    obtain rfl | live := cases_live id live
    · exact ⟨fid, decl, home, (functions fid).trans stored, top ▸ hparent⟩
    · obtain ⟨fid', decl', home', stored', parent⟩ := h.calls id above live
      exact ⟨fid', decl', home', (functions fid').trans stored', spares.get id live ▸ parent⟩
  · intro id parent live hid
    obtain rfl | live := cases_live id live
    · rw [top, hparent] at hid
      cases hid
      exact h.home_live stored
    · rw [spares.get id live] at hid
      exact h.rooted id parent live hid

/-- Dropping the frames of calls keeps the invariant. -/
theorem leave (h : t.Sound base) (hbase : base ≤ c.index) (hsize : c.index ≤ t.frames.size) :
    (t.leave c).Sound base := by
  have size : (t.leave c).frames.size = c.index :=
    Frames.size_release.trans (Nat.min_eq_left hsize)
  have get (id : FrameId) (live : id.index < c.index) :
      (t.leave c).frames.get id = t.frames.get id := Frames.get_release_of_lt live
  refine ⟨size ▸ hbase, ?_, ?_, ?_⟩
  · intro id decl home stored
    obtain ⟨below, idle⟩ := h.homes id decl home stored
    exact ⟨below, get home (Nat.lt_of_lt_of_le below hbase) ▸ idle⟩
  · intro id above live
    rw [size] at live
    rw [get id live]
    exact h.calls id above (Nat.lt_of_lt_of_le live hsize)
  · intro id parent live hid
    rw [size] at live
    rw [get id live] at hid
    exact h.rooted id parent (Nat.lt_of_lt_of_le live hsize) hid

end Sound

namespace Follows

/-- What was ready to run in a frame stays so. -/
theorem ready (h : s.Follows base c t) (ready : s.Ready base c) : t.Ready base c where
  sound := h.sound ready
  live := Nat.lt_of_lt_of_le ready.live h.touches.size
  running above := by
    rw [h.touches.procedure ready.live]
    exact ready.running above

theorem trans (h : s.Follows base c t) (h' : t.Follows base c u) : s.Follows base c u where
  touches := h.touches.trans h'.touches
  recalls id f stored := h'.recalls id f (h.recalls id f stored)
  sound ready := h'.sound (h.ready ready)

/-- A change of the own frame. -/
theorem touch (touches : s.frames.Touches c t.frames) (size : t.frames.size = s.frames.size)
    (functions : ∀ id, t.store.function? id = s.store.function? id) : s.Follows base c t :=
  ⟨touches, fun id _ stored => (functions id).trans stored,
    fun ready => ready.sound.touch touches size functions⟩

/-- Frames and functions are all that matters. -/
theorem still (hframes : t.frames = s.frames)
    (functions : ∀ id, t.store.function? id = s.store.function? id) : s.Follows base c t := by
  have touches : s.frames.Touches c t.frames := hframes ▸ .refl c s.frames
  exact .touch touches (congrArg Frames.size hframes) functions

/-- The objects of `with` blocks do not matter. -/
theorem withObjects (s : State) (objects : List CellId) :
    s.Follows base c { s with objects := objects } :=
  .still rfl fun _ => rfl

theorem newFunction {f : Callable}
    (idle : ∀ decl home, f = .script decl home → home = c ∧ (s.frames.get c).procedure = none) :
    s.Follows base c (s.newFunction f).2 where
  touches := .refl c s.frames
  recalls _ _ stored := Store.function?_newFunction.mpr (.inr stored)
  sound ready := ready.sound.newFunction fun decl home same => by
    obtain ⟨rfl, idle⟩ := idle decl home same
    refine ⟨Nat.lt_of_not_le fun above => ?_, idle⟩
    have running := ready.running above
    rw [idle] at running
    cases running

end Follows

/-! ## The frame of a call -/

theorem Ready.opens (h : s.Ready base c) (opens : s.Opens home t) {decl : Procedure}
    (stored : ∃ id, s.store.function? id = some (.script decl home))
    (mark : (t.frames.get s.nextFrame).procedure = some decl.name) : t.Ready base s.nextFrame := by
  obtain ⟨id, stored⟩ := stored
  exact ⟨h.sound.opens opens stored, opens.nextFrame_live, fun _ => mark ▸ rfl⟩

theorem Opens.recalls (h : s.Opens home t) : s.Recalls t := by
  intro id f stored
  rw [h.functions]
  exact stored

/-- What follows in the frame of a call follows where the call is made. -/
theorem Follows.body (h : t.Follows base s.nextFrame u) (opens : s.Opens home t) {decl : Procedure}
    (stored : ∃ id, s.store.function? id = some (.script decl home))
    (mark : (t.frames.get s.nextFrame).procedure = some decl.name) : s.Follows base c u where
  touches := (h.touches.spares opens.spares).touches c
  recalls id f found := h.recalls id f (opens.recalls id f found)
  sound ready := h.sound (ready.opens opens stored mark)

/-- So does dropping the frame. -/
theorem Follows.left (h : s.Follows base c u) (touches : s.frames.Spares u.frames) :
    s.Follows base c (u.leave s.nextFrame) where
  touches := touches.release.touches c
  recalls := h.recalls
  sound ready := (h.sound ready).leave ready.sound.base_le touches.size

end State

/-! ## The run of a page -/

namespace Moment

/-- The frames that a moment speaks about are there, and a procedure that it calls is stored, with
the frame that the call will hang below. -/
def Safe (m : Moment) : Prop :=
  match m.act with
  | .proceed => True
  | .visit id => id.index < m.state.frames.size
  | .call decl home =>
    home.index < m.state.frames.size ∧
      (∃ id, m.state.store.function? id = some (.script decl home)) ∧
      ((m.state.enter home).2.frames.get (m.state.enter home).1).parent = some home

end Moment

/-- To follow what has been declared, in frames that are there. -/
def Discipline.closures (base : Nat) : Discipline where
  during c s m := s.Follows base c m.state ∧ (s.Ready base c → m.Safe)
  behind c s t := s.Follows base c t
  callable s decl home := ∃ id, s.store.function? id = some (.script decl home)
  natives _ _ := True
  start := ⟨.still rfl fun _ => rfl, fun _ => trivial⟩
  refl := .still rfl fun _ => rfl
  trans := .trans
  later h h' := ⟨h.trans h'.1, fun ready => h'.2 (h.ready ready)⟩
  visit := ⟨.still rfl fun _ => rfl, fun ready => ready.live⟩
  newCell := .still rfl fun _ => rfl
  newObject := .still rfl fun _ => rfl
  memberOrNew := .still rfl Store.function?_memberOrNew
  put _ := .still rfl fun _ => rfl
  addMember _ := .still rfl fun _ => rfl
  putMember _ := .still rfl fun _ => rfl
  newNative _ := .newFunction nofun
  tick := .still rfl fun _ => rfl
  respond := .still rfl fun _ => rfl
  addLine := .still rfl fun _ => rfl
  define hhow free := .touch (State.touches_define hhow free) Frames.size_modify fun _ => rfl
  newFunction idle := .newFunction fun _ _ same => by
    cases same
    exact ⟨rfl, idle⟩
  setExplicit :=
    .touch (.modify ⟨rfl, rfl, rfl, fun _ _ h => h⟩) Frames.size_modify fun _ => rfl
  inside_during h :=
    have entered := State.Follows.withObjects _ _
    ⟨entered.trans h.1, fun ready => h.2 (entered.ready ready)⟩
  inside_behind h := (State.Follows.withObjects _ _).trans (h.trans (.withObjects _ _))
  callable_stored stored := ⟨_, stored⟩
  callable_behind h := fun ⟨id, stored⟩ => ⟨id, h.recalls id _ stored⟩
  natives_stored _ := Callable.does_true _
  natives_behind _ _ := trivial
  calling {c s decl home act} stored hact := by
    refine ⟨.still rfl fun _ => rfl, fun ready => ?_⟩
    obtain rfl | rfl := hact
    · trivial
    · obtain ⟨id, stored⟩ := stored
      exact ⟨ready.sound.home_live stored, ⟨id, stored⟩,
        congrArg Frame.parent Frames.get_push_self⟩
  opening {c s decl home t act} stored _ opens hact := by
    refine ⟨⟨opens.spares.touches c, opens.recalls, fun ready => ?_⟩, fun _ => ?_⟩
    · obtain ⟨id, stored⟩ := stored
      exact ready.sound.opens opens stored
    · obtain rfl | rfl := hact
      · trivial
      · exact opens.nextFrame_live
  body_during stored _ opens mark h :=
    ⟨h.1.body opens stored mark, fun ready => h.2 (ready.opens opens stored mark)⟩
  closing stored _ opens mark h :=
    ⟨(h.body opens stored mark).left (h.touches.spares opens.spares), fun _ => trivial⟩
  body_behind stored _ opens mark h :=
    ((h.body opens stored mark).left (h.touches.spares opens.spares)).trans (.withObjects _ _)

namespace State

/-- The frame of the host's names. -/
def hostFrame : FrameId := ⟨0⟩

/-- The frame of the page's names. -/
def pageFrame : FrameId := ⟨1⟩

/-- A page is about to run: its frame is the only one besides that of the host, and no procedure has
been declared. -/
structure Fresh (s : State) : Prop where
  size : s.frames.size = 2
  host : (s.frames.get hostFrame).parent = none
  page : (s.frames.get pageFrame).parent = some hostFrame
  functions : ∀ id decl home, s.store.function? id ≠ some (.script decl home)

theorem Fresh.ready {s : State} (h : s.Fresh) : s.Ready 2 pageFrame where
  sound := by
    refine ⟨Nat.le_of_eq h.size.symm, fun id decl home stored => ?_, fun id above live => ?_, ?_⟩
    · exact absurd stored (h.functions id decl home)
    · rw [h.size] at live
      exact absurd live (Nat.not_lt_of_le above)
    · rintro ⟨index⟩ parent live hparent
      rw [h.size] at live
      match index, live with
      | 0, _ => cases h.host.symm.trans hparent
      | 1, _ =>
        cases h.page.symm.trans hparent
        exact Nat.zero_lt_one
  live := h.size ▸ Nat.one_lt_two
  running above := absurd above (by decide)

/-- The state in which a page starts whose host offers no names. -/
def page (world : World) (limit : Nat) : State :=
  ((State.start world limit).pushRoot.2.pushChild hostFrame).2

theorem fresh_page (request : Request) (limit : Nat) : (page (.new request) limit).Fresh := by
  refine ⟨rfl, rfl, rfl, fun id decl home stored => ?_⟩
  have empty : (#[] : Array Callable)[id.index]? = none := Array.getElem?_empty
  cases empty.symm.trans stored

end State

namespace Evaluator

/-- **No procedure outlives the frame it was declared in.**  Whenever a page runs, at every moment
each stored procedure was declared in a frame that is there, that runs no procedure and that was
there before the first call; each frame of a call hangs below the one that a procedure was declared
in; and only frames that are there are visited or get children. -/
theorem sound_ofBound (bound : Nat) (body : List Stmt) {s : State} (h : s.Fresh) {moment : Moment}
    (hv : ((ofBound bound).runBody State.pageFrame body).visits s moment) :
    (∀ id decl home, moment.state.store.function? id = some (.script decl home) →
      home.index < moment.state.frames.size ∧ home.index < s.frames.size ∧
        (moment.state.frames.get home).procedure = none) ∧
    (∀ id : FrameId, s.frames.size ≤ id.index → id.index < moment.state.frames.size →
      ∃ fid decl home, moment.state.store.function? fid = some (.script decl home) ∧
        (moment.state.frames.get id).parent = some home) ∧
    (∀ id parent, id.index < moment.state.frames.size →
      (moment.state.frames.get id).parent = some parent →
        parent.index < moment.state.frames.size) ∧
    moment.Safe := by
  have hev : (ofBound bound).Keeps (Discipline.closures 2) := keeps_ofBound _ bound
  obtain ⟨follows, safe⟩ := (keeps_runBody hev body s).during moment hv
  have sound := follows.sound h.ready
  refine ⟨fun id decl home stored => ?_, fun id above live => ?_, fun id parent live hparent => ?_,
    safe h.ready⟩
  · obtain ⟨below, idle⟩ := sound.homes id decl home stored
    exact ⟨sound.home_live stored, h.size ▸ below, idle⟩
  · exact sound.calls id (h.size ▸ above) live
  · exact Nat.lt_trans (sound.rooted id parent live hparent) live

/-- A page that declares a procedure ends with it in the store and with its home in place. -/
theorem sound_ofBound_declared :
    (State.page default 1).Fresh ∧
      ∃ t, ((ofBound 1).runBody State.pageFrame
          [.procedure default (.mk default .sub [] [] .isPublic)] (.page default 1)).state? =
          some t ∧
        t.store.function? ⟨0⟩ =
          some (.script (.mk default .sub [] [] .isPublic) State.pageFrame) ∧
        State.pageFrame.index < t.frames.size := by
  have fresh : (State.page default 1).Fresh := State.fresh_page _ _
  refine ⟨fresh, _, rfl, rfl, ?_⟩
  have sound := sound_ofBound 1 [.procedure default (.mk default .sub [] [] .isPublic)] fresh
    (Run.visits_stop _ rfl)
  exact (sound.1 ⟨0⟩ _ _ rfl).1

end Evaluator

end PageScript
