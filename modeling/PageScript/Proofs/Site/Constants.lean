import PageScript.Proofs.Machine.Constancy
import PageScript.Proofs.Machine.Locality
import PageScript.Proofs.Site.Prelude

/-!
# Proofs/Site/Constants — what a page cannot change

A page finds the names of its host in a frame of their own, bound to read-only cells.  Whatever the
page does, and wherever it stops, these names stay as they are, and so does every constant and every
member of a host object (`pageRun_constant`).
-/

namespace PageScript

variable {h : Host} {world : World} {limit : Nat} {bound : Nat} {s : State}

namespace Host

/-- The frame of a host is there with exactly the host's names, bound to the cells from a certain one
on, and these are read-only and hold the host's values. -/
structure Installed (h : Host) (next : Nat) (s : State) : Prop where
  frame : s.frames.get ⟨0⟩ = h.frame next
  cells : ∀ {name value}, h.get? name = some value →
    ∃ cell, (h.frame next).bindings.get? name = some cell ∧ s.store.cell cell = ⟨value, true⟩

theorem find?_placed (folded : String) : ∀ {entries : List (Name × Value)} (next : Nat) {value : Value},
    (entries.find? fun (key, _) => key.text == folded).map Prod.snd = some value →
      ∃ i, ((placed next entries).find? fun (key, _) => key.text == folded).map Prod.snd =
          some ⟨next + i⟩ ∧ (cells entries)[i]? = some ⟨value, true⟩
  | [], _, _, hfound => nomatch hfound
  | (name, v) :: rest, next, value, hfound => by
    by_cases same : (name.text == folded) = true
    · simp only [List.find?_cons, same, Option.map_some, Option.some.injEq] at hfound
      subst hfound
      refine ⟨0, ?_, rfl⟩
      simp only [placed, List.find?_cons, same, Option.map_some, Nat.add_zero]
    · simp only [List.find?_cons, Bool.eq_false_iff.mpr same] at hfound
      obtain ⟨i, hplaced, hcell⟩ := find?_placed folded (next + 1) hfound
      refine ⟨i + 1, ?_, hcell⟩
      simp only [placed, List.find?_cons, Bool.eq_false_iff.mpr same, hplaced, Nat.add_right_comm,
        Nat.add_assoc]

/-- What has become of a store with the cells of a host has the values of the host in them. -/
theorem installed_of_grows (hframe : s.frames.get ⟨0⟩ = h.frame world.store.cells.size)
    (grows : (h.seeded world.store).Grows s.store) : h.Installed world.store.cells.size s where
  frame := hframe
  cells {name value} hfound := by
    rw [Dictionary.get?_eq_find?] at hfound
    obtain ⟨i, hplaced, hcell⟩ := find?_placed name world.store.cells.size hfound
    refine ⟨_, hplaced, ?_⟩
    have seeded : (h.seeded world.store).cell ⟨world.store.cells.size + i⟩ = ⟨value, true⟩ := by
      simp [Store.cell, Host.seeded, Array.getElem?_append_right, hcell]
    exact (grows.readonly (congrArg Cell.readonly seeded)).trans seeded

theorem advances_declareAll (frame : FrameId) : ∀ (entries : List (Name × Value)) {s : State},
    (declareAll frame entries).Advances s
  | [], _ => Run.advances_pure ()
  | (name, value) :: rest, _ =>
    (Run.advances_declare frame .readonly name value).bind fun _ _ _ =>
      advances_declareAll frame rest

theorem advances_install (h : Host) : h.install.Advances s :=
  (Run.advances_step (.refl _)).bind fun frame _ _ =>
    (advances_declareAll frame h.entries).bind fun _ _ _ =>
      (Run.Advances.about (Run.advances_change (.refl _)) _).bind fun _ _ _ => Run.advances_pure _

end Host

/-- The steps of a page behind the installation of the host. -/
def pageRest (ev : Evaluator) (explicit : Bool) (body : List Stmt) (outer : FrameId) : Run Unit := do
  let page ← Run.visiting outer fun outer => Run.step (·.pushChild outer)
  if explicit then
    Run.visiting page fun page => Run.change (·.mapFrames (·.setExplicit page true))
  ev.runBody page body

theorem advances_pageRest (explicit : Bool) (body : List Stmt) (outer : FrameId) :
    (pageRest (.ofBound bound) explicit body outer).Advances s := by
  have main (page : FrameId) (t : State) :
      ((Evaluator.ofBound bound).runBody page body).Advances t :=
    Evaluator.follows_runBody (Evaluator.follows_ofBound .advance bound) body t
  refine (Run.Advances.about (Run.advances_step (.refl _)) _).bind fun page t _ => ?_
  cases explicit with
  | false => exact main page t
  | true =>
    exact (Run.Advances.about (Run.advances_change (.refl _)) _).bind fun _ u _ => main page u

theorem advances_pageRun (h : Host) (explicit : Bool) (body : List Stmt) :
    (pageRun (.ofBound bound) h explicit body).Advances s :=
  h.advances_install.bind fun outer _ _ => advances_pageRest explicit body outer

/-- Behind the installation of the host, a page leaves the frame of the host as it is. -/
theorem meets_pageRest (explicit : Bool) (body : List Stmt) :
    (pageRest (.ofBound bound) explicit body ⟨0⟩).Meets
      ⟨h.seededWorld world, ⟨#[h.frame world.store.cells.size]⟩, [], 0, limit⟩
      (fun moment => moment.state.frames.get ⟨0⟩ = h.frame world.store.cells.size)
      (fun _ _ => True) fun _ => True := by
  have main (explicit : Bool) : ((Evaluator.ofBound bound).runBody ⟨1⟩ body).Meets
      (h.opened explicit world limit)
      (fun moment => moment.state.frames.get ⟨0⟩ = h.frame world.store.cells.size)
      (fun _ _ => True) fun _ => True :=
    (Evaluator.keeps_runBody (Evaluator.keeps_ofBound .locality bound) body _).mono
      (fun _ touches => touches.others ⟨0⟩ nofun Nat.two_pos) (fun _ _ _ => trivial)
        fun _ _ => trivial
  refine Run.Meets.bind (q := fun page t => page = ⟨1⟩ ∧ t = h.opened false world limit)
    (Run.Meets.visiting rfl (Run.meets_step rfl rfl ⟨rfl, rfl⟩)) ?_
  rintro _ _ - ⟨rfl, rfl⟩
  cases explicit with
  | false => exact main false
  | true =>
    refine Run.Meets.bind (q := fun _ t => t = h.opened true world limit)
      (Run.Meets.visiting rfl (Run.meets_change rfl rfl rfl)) ?_
    rintro _ _ - rfl
    exact main true

/-- **A page changes no read-only cell.**  The read-only cells that two moments of a page both have
are the same in both; those that were there before the page, the members of objects and the functions
are there at every moment; as soon as the host is installed, its frame has the host's names and no
others, each bound to its own read-only cell with the value of the host; and whatever would write to
a read-only cell fails in the state that it has come to. -/
theorem pageRun_constant (bound : Nat) (h : Host) (explicit : Bool) (body : List Stmt)
    (world : World) (limit : Nat) :
    (∀ c s body', ((Evaluator.ofBound bound).runBody c body').Constant s) ∧
    (pageRun (.ofBound bound) h explicit body).Constant (.start world limit) ∧
    (∀ moment, (pageRun (.ofBound bound) h explicit body).visits (.start world limit) moment →
      world.store.Extends moment.state.store ∧
        (h.install.visits (.start world limit) moment ∨
          h.Installed world.store.cells.size moment.state)) ∧
    (Evaluator.ofBound bound).RefusesWrites := by
  have page : (pageRun (.ofBound bound) h explicit body).Advances (.start world limit) :=
    advances_pageRun h explicit body
  refine ⟨fun c s body' => ?_, page.constant, fun moment hv => ⟨(page.start moment hv).toExtends, ?_⟩,
    Evaluator.refusesWrites _⟩
  · exact (Evaluator.follows_runBody (Evaluator.follows_ofBound .advance bound) body' s).constant
  · obtain hv | hv := Run.visits_bind_of_done (h.install_run world limit) hv
    · exact .inl hv
    · exact .inr (Host.installed_of_grows ((meets_pageRest explicit body).during moment hv)
        ((advances_pageRest explicit body ⟨0⟩).start moment hv))

end PageScript
