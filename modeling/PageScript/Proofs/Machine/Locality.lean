import PageScript.Proofs.Machine.Discipline

/-!
# Proofs/Machine/Locality — running in a frame touches that frame only

Whatever is run in a frame, the other frames that were there are the same at every moment, and the
frame itself only gains names (`Evaluator.touches_ofBound`).  A procedure runs in a frame of its
own, so for those of its caller and of its declaration nothing changes at all: no name of the
procedure can be seen from them, neither while it runs nor afterwards.
-/

namespace PageScript

/-- A frame has gained names, and perhaps another rule on declarations; the names that were there
stand for the same cells. -/
structure Frame.Grows (f g : Frame) : Prop where
  parent : g.parent = f.parent
  frozen : g.frozen = f.frozen
  procedure : g.procedure = f.procedure
  bindings : ∀ name cell, f.bindings.get? name = some cell → g.bindings.get? name = some cell

namespace Frame.Grows

variable {f g h : Frame}

theorem refl (f : Frame) : f.Grows f := ⟨rfl, rfl, rfl, fun _ _ h => h⟩

theorem trans (hfg : f.Grows g) (hgh : g.Grows h) : f.Grows h :=
  ⟨hgh.parent.trans hfg.parent, hgh.frozen.trans hfg.frozen, hgh.procedure.trans hfg.procedure,
    fun name cell hcell => hgh.bindings name cell (hfg.bindings name cell hcell)⟩

/-- A new name may be bound. -/
theorem bind {name : Name} (free : f.bindings.get? name.text = none) (cell : CellId) :
    f.Grows (f.bind name cell) := by
  refine ⟨rfl, rfl, rfl, fun other old hold => ?_⟩
  have hne : name.text ≠ other := by
    rintro rfl
    rw [free] at hold
    cases hold
  exact (Dictionary.get?_insert_of_ne _ hne cell).trans hold

end Frame.Grows

/-! ## Frames from below -/

namespace Frames

variable {fs gs : Frames} {n : Nat} {name : String}

/-- Every frame sees older frames only. -/
def Rooted (fs : Frames) : Prop :=
  ∀ id parent, id.index < fs.size → (fs.get id).parent = some parent → parent.index < id.index

/-- What is seen from a frame of rooted frames depends on the older frames only, and a bound above
the number of the frame does not cut the search short. -/
theorem lookupWithin_congr (rooted : fs.Rooted)
    (same : ∀ id, id.index < fs.size → gs.get id = fs.get id) :
    ∀ {bound bound' : Nat} {id : FrameId}, id.index < fs.size → id.index < bound →
      id.index < bound' → gs.lookupWithin name bound' id = fs.lookupWithin name bound id
  | bound + 1, bound' + 1, id, live, hbound, hbound' => by
    unfold lookupWithin
    rw [same id live]
    cases (fs.get id).bindings.get? name with
    | some cell => rfl
    | none =>
      cases hparent : (fs.get id).parent with
      | none => rfl
      | some parent =>
        have older : parent.index < id.index := rooted id parent live hparent
        exact lookupWithin_congr rooted same (Nat.lt_trans older live)
          (Nat.lt_of_lt_of_le older (Nat.le_of_lt_succ hbound))
          (Nat.lt_of_lt_of_le older (Nat.le_of_lt_succ hbound'))

/-- Frames are what is found by their numbers. -/
theorem ext_get (size : gs.size = fs.size)
    (same : ∀ id, id.index < fs.size → gs.get id = fs.get id) : gs = fs := by
  have sizes : gs.frames.size = fs.frames.size := size
  refine congrArg mk (Array.ext sizes fun i hg hf => ?_)
  have found := same ⟨i⟩ hf
  simpa only [get, Array.getElem?_eq_getElem hg, Array.getElem?_eq_getElem hf,
    Option.getD_some] using found

/-- Frames are still there among others, unchanged. -/
structure Spares (fs gs : Frames) : Prop where
  size : fs.size ≤ gs.size
  get : ∀ id : FrameId, id.index < fs.size → gs.get id = fs.get id

/-- Frames are still there among others, unchanged but for one that has grown. -/
structure Touches (c : FrameId) (fs gs : Frames) : Prop where
  size : fs.size ≤ gs.size
  others : ∀ id : FrameId, id ≠ c → id.index < fs.size → gs.get id = fs.get id
  own : c.index < fs.size → (fs.get c).Grows (gs.get c)

variable {hs : Frames} {c : FrameId}

namespace Spares

theorem refl (fs : Frames) : fs.Spares fs := ⟨Nat.le_refl _, fun _ _ => rfl⟩

theorem touches (h : fs.Spares gs) (c : FrameId) : fs.Touches c gs :=
  ⟨h.size, fun id _ live => h.get id live, fun live => h.get c live ▸ .refl _⟩

theorem push (fs : Frames) (f : Frame) : fs.Spares (fs.push f).2 :=
  ⟨size_push ▸ Nat.le_succ _, fun _ => get_push_of_lt⟩

/-- Dropping what is on top spares what is below. -/
theorem release (h : fs.Spares gs) : fs.Spares (gs.release ⟨fs.size⟩) where
  size := by
    rw [size_release]
    exact Nat.le_min.mpr ⟨Nat.le_refl _, h.size⟩
  get id live := (get_release_of_lt live).trans (h.get id live)

/-- Dropping what is on top leaves what is below. -/
theorem release_eq (h : fs.Spares gs) : gs.release ⟨fs.size⟩ = fs :=
  ext_get (size_release.trans (Nat.min_eq_left h.size)) h.release.get

/-- Frames on top of rooted frames hide nothing and show nothing. -/
theorem lookup_eq (h : fs.Spares gs) (rooted : fs.Rooted) {id : FrameId} (live : id.index < fs.size)
    (name : String) : gs.lookup id name = fs.lookup id name :=
  lookupWithin_congr rooted h.get live live (Nat.lt_of_lt_of_le live h.size)

end Spares

namespace Touches

theorem refl (c : FrameId) (fs : Frames) : fs.Touches c fs := (Spares.refl fs).touches c

theorem trans (h : fs.Touches c gs) (h' : gs.Touches c hs) : fs.Touches c hs where
  size := Nat.le_trans h.size h'.size
  others id hne live :=
    (h'.others id hne (Nat.lt_of_lt_of_le live h.size)).trans (h.others id hne live)
  own live := (h.own live).trans (h'.own (Nat.lt_of_lt_of_le live h.size))

/-- Touching a frame above others spares these. -/
theorem spares (h : gs.Touches ⟨fs.size⟩ hs) (h' : fs.Spares gs) : fs.Spares hs where
  size := Nat.le_trans h'.size h.size
  get id live := by
    have hne : id ≠ ⟨fs.size⟩ := by
      rintro rfl
      exact Nat.lt_irrefl _ live
    exact (h.others id hne (Nat.lt_of_lt_of_le live h'.size)).trans (h'.get id live)

theorem modify {change : Frame → Frame} (hchange : (fs.get c).Grows (change (fs.get c))) :
    fs.Touches c (fs.modify c change) where
  size := Nat.le_of_eq size_modify.symm
  others _ hne _ := get_modify_of_ne (Ne.symm hne)
  own live := by
    rw [get_modify_self live]
    exact hchange

end Touches

end Frames

namespace State

variable {c home : FrameId} {s t : State}

theorem touches_define {how : Declaration} {name : Name} {value : Value} (hhow : how ≠ .replacing)
    (free : s.declarationFault? c how name = none) :
    s.frames.Touches c (s.define c how name value).2.frames := by
  have unbound : (s.frames.get c).bindings.get? name.text = none := by
    simp only [declarationFault?] at free
    split at free
    · cases free
    · split at free
      · cases free
      · rename_i h
        exact Option.not_isSome_iff_eq_none.mp fun hbound => h ⟨hhow, hbound⟩
  exact .modify (.bind unbound _)

theorem Opens.spares (h : s.Opens home t) : s.frames.Spares t.frames := by
  obtain ⟨f, frames, -, -⟩ := h.frames
  rw [frames]
  exact .push _ f

end State

/-! ## The machine -/

/-- To touch no more than the own frame. -/
def Discipline.locality : Discipline where
  during c s m := s.frames.Touches c m.state.frames
  behind c s t := s.frames.Touches c t.frames
  callable _ _ _ := True
  natives _ _ := True
  start := .refl _ _
  refl := .refl _ _
  trans := .trans
  later := .trans
  visit := .refl _ _
  newCell {c s _ _} := .refl c s.frames
  newObject {c s} := .refl c s.frames
  memberOrNew {c s _ _} := .refl c s.frames
  put {c s _ _} _ := .refl c s.frames
  addMember {c s _ _ _} _ := .refl c s.frames
  putMember {c s _ _ _} _ := .refl c s.frames
  newNative {c s _ _ _} _ := .refl c s.frames
  tick {c s} := .refl c s.frames
  respond {c s _} := .refl c s.frames
  addLine {c s _} := .refl c s.frames
  define := State.touches_define
  newFunction {c s _} _ := .refl c s.frames
  setExplicit := .modify ⟨rfl, rfl, rfl, fun _ _ h => h⟩
  inside_during h := h
  inside_behind h := h
  callable_stored _ := trivial
  callable_behind _ _ := trivial
  natives_stored _ := Callable.does_true _
  natives_behind _ _ := trivial
  calling {c s _ _ _} _ _ := .refl c s.frames
  opening _ _ h _ := h.spares.touches _
  body_during _ _ h _ h' := (h'.spares h.spares).touches _
  closing _ _ h _ h' := (h'.spares h.spares).release.touches _
  body_behind _ _ h _ h' := (h'.spares h.spares).release.touches _

namespace Evaluator

/-- **Running in a frame touches that frame only**, whatever runs from whatever state: declarations,
statements, bodies, expressions and calls, up to every moment of the run.  A called procedure
touches no frame that was there: nothing that it declares is seen from any of them. -/
theorem touches_ofBound (bound : Nat) (c : FrameId) (s : State) :
    (∀ stmt moment, (Stmt.declare c stmt).visits s moment →
      s.frames.Touches c moment.state.frames) ∧
    (∀ body moment, (Stmt.declareBody c body).visits s moment →
      s.frames.Touches c moment.state.frames) ∧
    (∀ stmt moment, ((ofBound bound).execute c stmt).visits s moment →
      s.frames.Touches c moment.state.frames) ∧
    (∀ body moment, ((ofBound bound).executeBody c body).visits s moment →
      s.frames.Touches c moment.state.frames) ∧
    (∀ body moment, ((ofBound bound).runBody c body).visits s moment →
      s.frames.Touches c moment.state.frames) ∧
    (∀ e moment, ((ofBound bound).evaluate c e).visits s moment →
      s.frames.Touches c moment.state.frames) ∧
    (∀ e moment, ((ofBound bound).operand c e).visits s moment →
      s.frames.Touches c moment.state.frames) ∧
    (∀ f args moment, ((ofBound bound).call c f args).visits s moment →
      s.frames.Touches c moment.state.frames) ∧
    (∀ decl home cells moment,
      ((ofBound bound).runProcedure decl home cells).visits s moment →
        s.frames.Spares moment.state.frames ∧
          (s.frames.Rooted → ∀ id name, id.index < s.frames.size →
            moment.state.lookup id name = s.lookup id name)) := by
  have hev : (ofBound bound).Keeps Discipline.locality := keeps_ofBound _ bound
  refine ⟨fun stmt => (stmt.keeps_declare (D := .locality) s).during,
    fun body => (Stmt.keeps_declareBody (D := .locality) body s).during,
    fun stmt => (hev.execute c stmt s).during,
    fun body => (keeps_executeBody hev body s).during,
    fun body => (keeps_runBody hev body s).during,
    fun e => (hev.evaluate c e s).during,
    fun e => (keeps_operand hev e s).during,
    fun f args => (keepsFrom_call hev args (Habit.calls_of_forall (fun _ _ => trivial)
      (fun _ => trivial) f)).during, ?_⟩
  intro decl home cells moment hv
  -- a procedure does not know the frame it is called from: take one that is not there
  have touches : s.frames.Touches s.nextFrame moment.state.frames :=
    (keepsFrom_runProcedure hev cells trivial).during moment hv
  have spares := touches.spares (.refl _)
  exact ⟨spares, fun rooted id name live => spares.lookup_eq rooted live name⟩

end Evaluator

end PageScript
