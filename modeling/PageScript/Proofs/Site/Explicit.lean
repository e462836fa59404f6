import PageScript.Proofs.Machine.Explicit
import PageScript.Proofs.Site.Constants

/-!
# Proofs/Site/Explicit — a page on which every name has to be declared

A page that starts with an explicit frame and nowhere switches the need for declarations off binds no
name but by the declarations of its host, of itself and of its calls, and evaluates no name that it
has not bound (`pageRun_explicit`).
-/

namespace PageScript

open State (hostFrame pageFrame)

namespace State

/-- A frame is there for a call of a procedure of the page. -/
structure RunsIn (s : State) (decl : Procedure) (id : FrameId) : Prop where
  above : pageFrame.index < id.index
  parent : (s.frames.get id).parent = some pageFrame
  procedure : (s.frames.get id).procedure = some decl.name
  stored : ∃ fid, s.store.function? fid = some (.script decl pageFrame)

/-- What may bind a name in a frame: the host seeds its own frame; the page has its declarations
hoisted; a call binds the cell of its result and its parameters and has its declarations hoisted. -/
inductive Owns (h : Host) (body : List Stmt) (s : State) : FrameId → Name → Prop
  | seeded {name : Name} (offered : name ∈ h.names) : Owns h body s hostFrame name
  | hoisted {name : Name} (declared : name ∈ Stmt.hoistedIn body) : Owns h body s pageFrame name
  | result {id : FrameId} {decl : Procedure} (runs : s.RunsIn decl id) : Owns h body s id decl.name
  | parameter {id : FrameId} {decl : Procedure} {param : Param} (runs : s.RunsIn decl id)
      (taken : param ∈ decl.params) : Owns h body s id param.name
  | local {id : FrameId} {decl : Procedure} {name : Name} (runs : s.RunsIn decl id)
      (declared : name ∈ Stmt.hoistedIn decl.body) : Owns h body s id name

/-- Every name that is bound in a frame has been bound by what may do so. -/
def Accounted (h : Host) (body : List Stmt) (s : State) : Prop :=
  ∀ id, ∀ name ∈ (s.frames.get id).bindings.names, s.Owns h body id name

end State

variable {h : Host} {body : List Stmt} {world : World} {limit bound : Nat} {s : State}

theorem State.not_mem_names_of_size_le {id : FrameId} (beyond : s.frames.size ≤ id.index) {name : Name} :
    name ∉ (s.frames.get id).bindings.names := by
  rw [Frames.get_of_size_le beyond]
  exact List.not_mem_nil

theorem State.Sealed.accounted (hs : s.Sealed h body) : s.Accounted h body := by
  rintro ⟨index⟩ name hname
  obtain _ | _ | index := index
  · obtain ⟨next, same⟩ := hs.host
    rw [show s.frames.get ⟨0⟩ = h.frame next from same] at hname
    have names : (h.frame next).bindings.names = h.names := h.bindings_names next
    exact .seeded (names ▸ hname)
  · exact .hoisted (hs.names name hname)
  · by_cases live : index + 2 < s.frames.size
    · obtain ⟨fid, decl, stored, isCall⟩ := hs.calls ⟨index + 2⟩ (Nat.le_add_left 2 index) live
      obtain ⟨mark, mem⟩ := isCall.names name hname
      have runs : s.RunsIn decl ⟨index + 2⟩ :=
        ⟨Nat.lt_of_lt_of_le Nat.one_lt_two (Nat.le_add_left 2 index), isCall.parent, mark, fid, stored⟩
      obtain rfl | mem := List.mem_cons.mp mem
      · exact .result runs
      · obtain taken | declared := List.mem_append.mp mem
        · obtain ⟨param, isParam, rfl⟩ := List.mem_map.mp taken
          exact .parameter runs isParam
        · exact .local runs declared
    · exact absurd hname (State.not_mem_names_of_size_le (Nat.le_of_not_lt live))

namespace Host

theorem hoists_declareAll {code : Stmt → Prop} (frame : FrameId) :
    ∀ entries : List (Name × Value),
      (declareAll frame entries).Hoists code frame (entries.map Prod.fst)
  | [] => Run.hoists_pure ()
  | (name, value) :: rest =>
    (Run.hoists_declare .readonly name value).bind fun _ => hoists_declareAll frame rest

/-- While the host is being installed, its names are the only ones that are bound. -/
theorem accounted_install (h : Host) (body : List Stmt) : h.install.Meets (.start world limit)
    (fun m => m.state.Accounted h body) (fun _ _ => True) fun _ => True := by
  have bare {t : State} (ht : ∀ id name, name ∉ (t.frames.get id).bindings.names) :
      t.Accounted h body := fun id name hname => absurd hname (ht id name)
  have empty (id : FrameId) (name : Name) :
      name ∉ ((State.start world limit).frames.get id).bindings.names :=
    State.not_mem_names_of_size_le (Nat.zero_le _)
  have fresh (id : FrameId) (name : Name) :
      name ∉ ((State.start world limit).pushRoot.2.frames.get id).bindings.names := by
    obtain ⟨_ | index⟩ := id
    · exact List.not_mem_nil
    · refine State.not_mem_names_of_size_le ?_
      exact Nat.le_add_left 1 index
  refine Run.Meets.bind
    (q := fun frame t => frame = hostFrame ∧ ∀ id name, name ∉ (t.frames.get id).bindings.names)
    (Run.meets_step (bare empty) (bare fresh) ⟨rfl, fresh⟩) ?_
  rintro _ t - ⟨rfl, ht⟩
  have seeded {u v : State} (hu : t.Hoists (fun _ => True) hostFrame h.names u)
      (same : ∀ id, (v.frames.get id).bindings = (u.frames.get id).bindings) :
      v.Accounted h body := fun id name hname => by
    rw [same] at hname
    by_cases host : id = hostFrame
    · subst host
      exact .seeded ((hu.names name hname).resolve_left (ht hostFrame name))
    · rw [hu.others id host] at hname
      exact absurd hname (ht id name)
  refine Run.Meets.bind (q := fun _ u => t.Hoists (fun _ => True) hostFrame h.names u)
    ((h.entries_map_fst ▸ hoists_declareAll hostFrame h.entries t).mono
      (fun _ hm => seeded hm.1 fun _ => rfl) (fun _ _ hu => hu) fun _ _ => trivial) ?_
  intro _ u _ hu
  have closed : (u.mapFrames (·.freeze hostFrame)).Accounted h body := seeded hu fun id => by
    by_cases same : hostFrame = id
    · subst same
      obtain kept | kept := u.frames.get_modify_self_cases hostFrame fun f => { f with frozen := true }
      · exact (congrArg Frame.bindings kept).trans rfl
      · exact congrArg Frame.bindings kept
    · exact congrArg Frame.bindings (Frames.get_modify_of_ne same)
  refine Run.Meets.bind (q := fun _ v => v = _)
    (Run.Meets.visiting (seeded hu fun _ => rfl)
      (Run.meets_change (seeded hu fun _ => rfl) closed rfl)) ?_
  rintro _ _ - rfl
  exact Run.meets_pure closed trivial

end Host

theorem Host.sealed_opened (hworld : world.store.KeepsExplicit) :
    (h.opened true world limit).Sealed h body where
  host := ⟨_, rfl⟩
  page_live := Nat.one_lt_two
  explicit := rfl
  names _ hname := absurd hname List.not_mem_nil
  calls _ above live := absurd live (Nat.not_lt_of_le above)
  procedures := hworld

/-- Behind the installation of the host, the page gets its frame, and then it runs. -/
theorem accounted_pageRest (hbody : Stmt.EveryIn Stmt.KeepsExplicit body)
    (hworld : world.store.KeepsExplicit) : (pageRest (.ofBound bound) true body hostFrame).Meets
      ⟨h.seededWorld world, ⟨#[h.frame world.store.cells.size]⟩, [], 0, limit⟩
      (fun m => m.state.Accounted h body) (fun _ _ => True) fun _ => True := by
  have opened : (h.opened true world limit).Sealed h body := Host.sealed_opened hworld
  have names : (h.frame world.store.cells.size).bindings.names = h.names :=
    h.bindings_names world.store.cells.size
  have host : State.Accounted h body
      ⟨h.seededWorld world, ⟨#[h.frame world.store.cells.size]⟩, [], 0, limit⟩ := by
    rintro ⟨_ | index⟩ name hname
    · exact .seeded (names ▸ hname)
    · refine absurd hname (State.not_mem_names_of_size_le ?_)
      exact Nat.le_add_left 1 index
  have closed : (h.opened false world limit).Accounted h body := by
    rintro ⟨_ | _ | index⟩ name hname
    · exact .seeded (names ▸ hname)
    · exact absurd hname List.not_mem_nil
    · refine absurd hname (State.not_mem_names_of_size_le ?_)
      exact Nat.le_add_left 2 index
  refine Run.Meets.bind (q := fun page t => page = pageFrame ∧ t = h.opened false world limit)
    (Run.Meets.visiting host (Run.meets_step host closed ⟨rfl, rfl⟩)) ?_
  rintro _ _ - ⟨rfl, rfl⟩
  refine Run.Meets.bind (q := fun _ t => t = h.opened true world limit)
    (Run.Meets.visiting closed (Run.meets_change closed opened.accounted rfl)) ?_
  rintro _ _ - rfl
  exact ⟨fun m hv => (opened.runBody hbody bound hv).1.accounted, fun _ _ _ => trivial,
    fun _ _ _ => trivial⟩

/-- **Where every name has to be declared, nothing else binds one.**  A page, and all procedures that
it finds, nowhere switch the need for declarations off, and the frame of the page is explicit from
the start.  Then at every moment of the page, from the installation of its host on, each name in each
frame has been seeded, hoisted, taken as a parameter or made as a result.  The page is its statements,
run behind that installation.  All through them, in every frame that is visited and in all others
but the one of the host, a name is found where it has been bound or it is an undeclared name,
whatever it is evaluated for, and to execute code there changes no frame; and the procedures that
are kept are as those that the page has found. -/
theorem pageRun_explicit (bound : Nat) (h : Host) {body : List Stmt}
    (hbody : Stmt.EveryIn Stmt.KeepsExplicit body) {world : World}
    (hworld : world.store.KeepsExplicit) (limit : Nat) :
    (∀ m, (pageRun (.ofBound bound) h true body).visits (.start world limit) m →
      m.state.Accounted h body) ∧
    pageRun (.ofBound bound) h true body (.start world limit) =
      (Evaluator.ofBound bound).runBody pageFrame body (h.opened true world limit) ∧
    (∀ m, ((Evaluator.ofBound bound).runBody pageFrame body).visits (h.opened true world limit) m →
      m.state.store.KeepsExplicit ∧ (∀ id, m.act = .visit id → m.state.Occupied id) ∧
      ∀ c, m.state.Occupied c → ∀ n, m.state.FindsNames c n ∧ m.state.KeepsFrames c n) := by
  have opened : (h.opened true world limit).Sealed h body := Host.sealed_opened hworld
  refine ⟨fun m hv => ?_, pageRun_run _ h true body world limit, fun m hv => ?_⟩
  · obtain hv | hv := Run.visits_bind_of_done (h.install_run world limit) hv
    · exact (h.accounted_install body).during m hv
    · exact (accounted_pageRest hbody hworld).during m hv
  · obtain ⟨sealed, occupied⟩ := opened.runBody hbody bound hv
    exact ⟨sealed.procedures, occupied, fun c hc n => ⟨sealed.findsNames hc n, sealed.keepsFrames hc n⟩⟩

/-- An undeclared name at the start of a page without host names. -/
theorem pageRun_explicit_undeclared :
    Stmt.EveryIn Stmt.KeepsExplicit [.call default (.var default (.ofString "x"))] ∧
      (World.new .empty).store.KeepsExplicit ∧
        (Host.opened .empty true (.new .empty) 1).Occupied pageFrame ∧
          (Evaluator.ofBound 1).evaluate pageFrame (.var default (.ofString "x"))
              (Host.opened .empty true (.new .empty) 1) =
            .failed (.of (.undeclared "x")) (Host.opened .empty true (.new .empty) 1) := by
  have keeps : Stmt.EveryIn Stmt.KeepsExplicit [.call default (.var default (.ofString "x"))] := by
    refine Stmt.everyIn_cons.mpr ⟨.leaf (fun _ => ?_) rfl rfl, Stmt.everyIn_nil⟩
    exact nofun
  have none : (World.new .empty).store.KeepsExplicit := fun id decl home stored => by
    have empty : (#[] : Array Callable)[id.index]? = none := Array.getElem?_empty
    cases empty.symm.trans stored
  have occupied : (Host.opened .empty true (.new .empty) 1).Occupied pageFrame :=
    ⟨nofun, Nat.one_lt_two⟩
  obtain ⟨-, -, within⟩ := pageRun_explicit 1 .empty keeps none 1
  obtain ⟨-, -, names⟩ := within _ (Run.visits_start _ _)
  refine ⟨keeps, none, occupied, ?_⟩
  exact ((names pageFrame occupied 0).1.read default (.ofString "x")).trans rfl

end PageScript
