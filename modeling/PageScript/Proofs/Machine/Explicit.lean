import PageScript.Proofs.Machine.Conduct
import PageScript.Proofs.Machine.Deeds
import PageScript.Proofs.Machine.Hoisting
import PageScript.Proofs.Machine.Opening
import PageScript.Proofs.Site.Prelude

/-!
# Proofs/Machine/Explicit — running where every name has to be declared

A frame is explicit if a name has to be declared before it is used.  A call takes the rule over from
the frame that its procedure was declared in, so where the frame of the page is explicit and no code
switches the rule off, all frames but that of the host are (`State.Sealed`).  In such a state a name
is found where it is bound or it is undeclared (`State.FindsNames`), and running code changes no
frame that is there (`State.KeepsFrames`): names come into frames by declarations, and by the set-up
of a call, only.
-/

namespace PageScript

open State (hostFrame pageFrame)

/-- A statement does not switch the need for declarations off. -/
def Stmt.KeepsExplicit (stmt : Stmt) : Prop := ∀ span, stmt ≠ .optionExplicit span false

/-- The names that the frame of a call of a procedure may bind: its own for the result, those of the
parameters and those that its body declares. -/
def Procedure.localNames (decl : Procedure) : List Name :=
  decl.name :: (decl.params.map Param.name ++ Stmt.hoistedIn decl.body)

/-- All procedures of a store were declared by a page, with code that nowhere switches the need for
declarations off. -/
def Store.KeepsExplicit (s : Store) : Prop :=
  ∀ id decl home, s.function? id = some (.script decl home) →
    home = pageFrame ∧ Stmt.EveryIn Stmt.KeepsExplicit decl.body

/-- An explicit frame of a call of a procedure of the page.  It is marked before it binds a name. -/
structure Frame.IsCallOf (f : Frame) (decl : Procedure) : Prop where
  parent : f.parent = some pageFrame
  explicit : f.explicit = true
  names : ∀ name ∈ f.bindings.names, f.procedure = some decl.name ∧ name ∈ decl.localNames

namespace Frame.IsCallOf

variable {f : Frame} {decl : Procedure}

theorem bind (h : f.IsCallOf decl) (mark : f.procedure = some decl.name) {name : Name}
    (hname : name ∈ decl.localNames) (cell : CellId) : (f.bind name cell).IsCallOf decl where
  parent := h.parent
  explicit := h.explicit
  names key hkey := by
    obtain rfl | hkey := Dictionary.mem_names_insert.mp hkey
    · exact ⟨mark, hname⟩
    · exact h.names key hkey

end Frame.IsCallOf

/-- A store with the procedures of another one.  Native functions may be new. -/
def Store.SameProcedures (s t : Store) : Prop :=
  ∀ id decl home, t.function? id = some (.script decl home) ↔ s.function? id = some (.script decl home)

namespace Store.SameProcedures

variable {s t u : Store}

theorem of_eq (h : ∀ id, t.function? id = s.function? id) : s.SameProcedures t :=
  fun id _ _ => iff_of_eq (congrArg (· = _) (h id))

theorem refl (s : Store) : s.SameProcedures s := .of_eq fun _ => rfl

theorem trans (h : s.SameProcedures t) (h' : t.SameProcedures u) : s.SameProcedures u :=
  fun id decl home => (h' id decl home).trans (h id decl home)

theorem newNative (s : Store) (name : Name) (service : Service) (held : List CellId) :
    s.SameProcedures (s.newFunction (.native name service held)).2 := by
  intro id decl home
  obtain live | top | beyond := Nat.lt_trichotomy id.index s.functions.size
  · rw [function?_newFunction_of_lt live]
  · obtain rfl : id = ⟨s.functions.size⟩ := congrArg FunctionId.mk top
    rw [function?_newFunction_self]
    exact ⟨nofun, fun stored => absurd (lt_of_function? stored) (Nat.lt_irrefl _)⟩
  · have above : (s.newFunction (.native name service held)).2.functions.size ≤ id.index :=
      Nat.le_trans (Nat.le_of_eq (Array.size_push _)) beyond
    exact ⟨fun stored => absurd (lt_of_function? stored) (Nat.not_lt.mpr above),
      fun stored => absurd (lt_of_function? stored) (Nat.lt_asymm beyond)⟩

end Store.SameProcedures

namespace State

/-- A frame that is there and that is not the one of the host. -/
def Occupied (s : State) (c : FrameId) : Prop := c ≠ hostFrame ∧ c.index < s.frames.size

/-- All frames but that of the host are explicit; each binds only what it may bind: the frame of the
host the names of the host, that of the page what the page declares, the others what the calls
declare that they are there for. -/
structure Sealed (h : Host) (body : List Stmt) (s : State) : Prop where
  host : ∃ next, s.frames.get hostFrame = h.frame next
  page_live : pageFrame.index < s.frames.size
  explicit : (s.frames.get pageFrame).explicit = true
  names : ∀ name ∈ (s.frames.get pageFrame).bindings.names, name ∈ Stmt.hoistedIn body
  calls : ∀ id : FrameId, 2 ≤ id.index → id.index < s.frames.size →
    ∃ fid decl, s.store.function? fid = some (.script decl pageFrame) ∧
      (s.frames.get id).IsCallOf decl
  procedures : s.store.KeepsExplicit

/-- A state with the frames of another one, perhaps with further ones on top, and with its
procedures. -/
structure Beneath (s t : State) : Prop where
  frames : s.frames.Spares t.frames
  procedures : s.store.SameProcedures t.store

/-- A state with the frames and procedures of another one. -/
structure Still (s t : State) : Prop where
  frames : t.frames = s.frames
  procedures : s.store.SameProcedures t.store

variable {h : Host} {body : List Stmt} {decl : Procedure} {c home : FrameId} {s t u : State}

namespace Beneath

theorem trans (hst : s.Beneath t) (htu : t.Beneath u) : s.Beneath u where
  frames := ⟨Nat.le_trans hst.frames.size htu.frames.size, fun id live =>
    (htu.frames.get id (Nat.lt_of_lt_of_le live hst.frames.size)).trans (hst.frames.get id live)⟩
  procedures := hst.procedures.trans htu.procedures

/-- Behind a call the frames are those from before it. -/
theorem leave (h : s.Beneath t) : s.Still { t.leave s.nextFrame with objects := s.objects } where
  frames := h.frames.release_eq
  procedures := h.procedures

end Beneath

namespace Still

theorem refl (s : State) : s.Still s := ⟨rfl, .refl _⟩

theorem trans (hst : s.Still t) (htu : t.Still u) : s.Still u :=
  ⟨htu.frames.trans hst.frames, hst.procedures.trans htu.procedures⟩

theorem beneath (h : s.Still t) : s.Beneath t := ⟨h.frames ▸ .refl _, h.procedures⟩

theorem occupied (h : s.Still t) (hc : s.Occupied c) : t.Occupied c := ⟨hc.1, h.frames ▸ hc.2⟩

theorem withObjects (s : State) (objects : List CellId) : s.Still { s with objects := objects } :=
  ⟨rfl, .refl _⟩

end Still

namespace Sealed

theorem still (hs : s.Sealed h body) (hst : s.Still t) : t.Sealed h body where
  host := hst.frames ▸ hs.host
  page_live := hst.frames ▸ hs.page_live
  explicit := hst.frames ▸ hs.explicit
  names := hst.frames ▸ hs.names
  calls id above live := by
    rw [hst.frames] at live ⊢
    obtain ⟨fid, decl, stored, isCall⟩ := hs.calls id above live
    exact ⟨fid, decl, (hst.procedures fid decl pageFrame).mpr stored, isCall⟩
  procedures id decl home stored := hs.procedures id decl home ((hst.procedures id decl home).mp stored)

/-- One more call. -/
theorem push (hs : s.Sealed h body) (hst : s.Beneath t) (size : t.frames.size = s.frames.size + 1)
    {fid : FunctionId} {decl : Procedure}
    (stored : s.store.function? fid = some (.script decl pageFrame))
    (isCall : (t.frames.get s.nextFrame).IsCallOf decl) : t.Sealed h body where
  host := hst.frames.get hostFrame (Nat.zero_lt_of_lt hs.page_live) ▸ hs.host
  page_live := Nat.lt_of_lt_of_le hs.page_live hst.frames.size
  explicit := hst.frames.get pageFrame hs.page_live ▸ hs.explicit
  names := hst.frames.get pageFrame hs.page_live ▸ hs.names
  calls id above live := by
    rw [size] at live
    obtain live | top := Nat.lt_succ_iff_lt_or_eq.mp live
    · obtain ⟨fid, decl, stored, isCall⟩ := hs.calls id above live
      exact ⟨fid, decl, (hst.procedures fid decl pageFrame).mpr stored,
        hst.frames.get id live ▸ isCall⟩
    · obtain rfl : id = s.nextFrame := congrArg FrameId.mk top
      exact ⟨fid, decl, (hst.procedures fid decl pageFrame).mpr stored, isCall⟩
  procedures id decl home stored := hs.procedures id decl home ((hst.procedures id decl home).mp stored)

/-- The page declares its names. -/
theorem hoist (hs : s.Sealed h body) {names : List Name}
    (hst : s.Hoists Stmt.KeepsExplicit pageFrame names t) (hnames : names ⊆ Stmt.hoistedIn body) :
    t.Sealed h body where
  host := hst.others hostFrame nofun ▸ hs.host
  page_live := hst.size ▸ hs.page_live
  explicit := (congrArg Frame.explicit hst.own).trans hs.explicit
  names name hname := (hst.names name hname).elim (hs.names name) (hnames ·)
  calls id above live := by
    rw [hst.size] at live
    obtain ⟨fid, decl, stored, isCall⟩ := hs.calls id above live
    have other : id ≠ pageFrame := by
      rintro rfl
      exact absurd above (by decide)
    exact ⟨fid, decl, hst.recalls fid _ stored, hst.others id other ▸ isCall⟩
  procedures id decl home stored := by
    obtain stored | ⟨-, decl', same, code⟩ := hst.functions id _ stored
    · exact hs.procedures id decl home stored
    · obtain ⟨rfl, rfl⟩ := Callable.script.inj same
      exact ⟨rfl, code⟩

theorem explicit_of_occupied (hs : s.Sealed h body) (hc : s.Occupied c) :
    (s.frames.get c).explicit = true := by
  obtain ⟨index⟩ := c
  obtain ⟨notHost, live⟩ := hc
  match index, live with
  | 0, _ => exact absurd rfl notHost
  | 1, _ => exact hs.explicit
  | index + 2, live =>
    obtain ⟨_, _, -, isCall⟩ := hs.calls ⟨index + 2⟩ (Nat.le_add_left 2 index) live
    exact isCall.explicit

/-- A name is looked up and never made. -/
theorem resolve (hs : s.Sealed h body) (hc : s.Occupied c) (name : Name) (mayDeclare : Bool) :
    s.resolve c name mayDeclare = (s.lookup c name.text, s) := by
  unfold State.resolve
  split
  · rename_i found
    rw [found]
  · rename_i unseen
    simp only [hs.explicit_of_occupied hc, Bool.or_true, Bool.true_or, if_true, unseen]

/-- To switch the rule on changes nothing. -/
theorem setExplicit (hs : s.Sealed h body) (hc : s.Occupied c) :
    s.frames.setExplicit c true = s.frames := by
  refine Frames.ext_get Frames.size_modify fun id _ => ?_
  by_cases same : c = id
  · subst same
    refine (Frames.get_modify_self hc.2).trans ?_
    rw [← hs.explicit_of_occupied hc]
  · exact Frames.get_modify_of_ne same

end Sealed

/-! ## The frame of a call -/

theorem Opens.size (h : s.Opens home t) : t.frames.size = s.frames.size + 1 := by
  obtain ⟨f, frames, -, -⟩ := h.frames
  rw [frames, Frames.size_push]

theorem Opens.beneath (h : s.Opens home t) : s.Beneath t := ⟨h.spares, .of_eq h.functions⟩

/-- A call of a procedure of the page has its frame, and nothing of the procedure has run. -/
structure Calling (s : State) (decl : Procedure) (t : State) : Prop where
  opens : s.Opens pageFrame t
  isCall : (t.frames.get s.nextFrame).IsCallOf decl

namespace Calling

theorem enter (hs : s.Sealed h body) (decl : Procedure) :
    s.Calling decl (State.enter { s with objects := [] } pageFrame).2 := by
  have top : (State.enter { s with objects := [] } pageFrame).2.frames.get s.nextFrame =
    .fresh (some pageFrame) (s.frames.get pageFrame).explicit := Frames.get_push_self
  refine ⟨opens_enter s pageFrame, ?_⟩
  rw [top]
  exact ⟨rfl, hs.explicit, fun _ hname => absurd hname List.not_mem_nil⟩

theorem setProcedure (hst : s.Calling decl t) :
    s.Calling decl (t.mapFrames (·.setProcedure s.nextFrame decl.name)) where
  opens := hst.opens.setProcedure decl.name
  isCall := by
    have top := hst.opens.get_modify fun f => { f with procedure := some decl.name }
    have isCall : ({ t.frames.get s.nextFrame with procedure := some decl.name } : Frame).IsCallOf
        decl :=
      ⟨hst.isCall.parent, hst.isCall.explicit,
        fun name hname => ⟨rfl, (hst.isCall.names name hname).2⟩⟩
    exact top ▸ isCall

theorem bind (hst : s.Calling decl t)
    (mark : (t.frames.get s.nextFrame).procedure = some decl.name) {name : Name}
    (hname : name ∈ decl.localNames) (cell : CellId) :
    s.Calling decl (t.bind s.nextFrame name cell) where
  opens := hst.opens.bind name cell
  isCall := by
    have top := hst.opens.get_modify (·.bind name cell)
    exact top ▸ hst.isCall.bind mark hname cell

theorem define (hst : s.Calling decl t) (hstore : t.store = s.store)
    (mark : (t.frames.get s.nextFrame).procedure = some decl.name) :
    s.Calling decl (t.define s.nextFrame .replacing decl.name .empty).2 :=
  ⟨hst.opens.define hstore decl.name,
    (hst.bind mark List.mem_cons_self ⟨t.store.cells.size⟩).isCall⟩

theorem bindAll : ∀ (pairs : List (Param × CellId)) {t : State},
    (∀ pair ∈ pairs, pair.1.name ∈ decl.localNames) → s.Calling decl t →
      (t.frames.get s.nextFrame).procedure = some decl.name →
        s.Calling decl (pairs.foldl (fun s' (p, cell) => s'.bind s.nextFrame p.name cell) t)
  | [], _, _, hst, _ => hst
  | (p, cell) :: rest, _, hpairs, hst, mark =>
    have ⟨first, further⟩ := List.forall_mem_cons.mp hpairs
    bindAll rest further (hst.bind mark first cell)
      ((hst.opens.procedure_bind p.name cell).trans mark)

theorem occupied (hst : s.Calling decl t) (hs : s.Sealed h body) : t.Occupied s.nextFrame := by
  refine ⟨fun same => ?_, hst.opens.live⟩
  have live := hs.page_live
  rw [show s.frames.size = 0 from congrArg FrameId.index same] at live
  exact Nat.not_lt_zero _ live

/-- While the call is there, all frames but that of the host are explicit. -/
theorem sealed (hst : s.Calling decl t) (hs : s.Sealed h body) {fid : FunctionId}
    (stored : s.store.function? fid = some (.script decl pageFrame)) : t.Sealed h body :=
  hs.push hst.opens.beneath hst.opens.size stored hst.isCall

end Calling

/-- What the body of a procedure declares is declared in the frame of the call, and no procedure is
among it. -/
theorem Beneath.hoist {names : List Name} {code : Stmt → Prop} {name : Name} (hst : s.Beneath t)
    (htu : t.Hoists code s.nextFrame names u)
    (mark : (t.frames.get s.nextFrame).procedure = some name) : s.Beneath u where
  frames := by
    refine ⟨htu.size ▸ hst.frames.size, fun id live => ?_⟩
    have other : id ≠ s.nextFrame := by
      rintro rfl
      exact Nat.lt_irrefl _ live
    exact (htu.others id other).trans (hst.frames.get id live)
  procedures id decl home := by
    refine Iff.trans ⟨fun stored => ?_, htu.recalls id _⟩ (hst.procedures id decl home)
    obtain stored | ⟨idle, -⟩ := htu.functions id _ stored
    · exact stored
    · cases mark.symm.trans idle

theorem Calling.hoist (hst : s.Calling decl t) (hs : s.Sealed h body) {fid : FunctionId}
    (stored : s.store.function? fid = some (.script decl pageFrame))
    (htu : t.Hoists Stmt.KeepsExplicit s.nextFrame (Stmt.hoistedIn decl.body) u)
    (mark : (t.frames.get s.nextFrame).procedure = some decl.name) : u.Sealed h body := by
  refine hs.push (hst.opens.beneath.hoist htu mark) (htu.size.trans hst.opens.size) stored ?_
  refine ⟨(congrArg Frame.parent htu.own).trans hst.isCall.parent,
    (congrArg Frame.explicit htu.own).trans hst.isCall.explicit, fun name hname => ?_⟩
  refine ⟨htu.procedure.trans mark, ?_⟩
  obtain hname | hname := htu.names name hname
  · exact (hst.isCall.names name hname).2
  · exact List.mem_cons_of_mem _ (List.mem_append_right _ hname)

end State

/-! ## The machine -/

/-- What a run that changes no frame comes through: frames of calls on top, which are gone behind
the run. -/
structure State.Encloses (h : Host) (body : List Stmt) (s : State) (m : Moment) : Prop where
  beneath : s.Beneath m.state
  sealed : m.state.Sealed h body
  occupied : ∀ id, m.act = .visit id → m.state.Occupied id

namespace State.Encloses

variable {h : Host} {body : List Stmt} {c : FrameId} {s t : State} {m : Moment}

theorem still (hs : s.Sealed h body) (hst : s.Still t) : s.Encloses h body t.moment :=
  ⟨hst.beneath, hs.still hst, nofun⟩

theorem trans (hst : s.Beneath t) (htm : t.Encloses h body m) : s.Encloses h body m :=
  ⟨hst.trans htm.beneath, htm.sealed, htm.occupied⟩

end State.Encloses

/-- From a state in which all frames but that of the host are explicit, a run in one of these changes
none of them. -/
def Run.Encloses {α : Type} (h : Host) (body : List Stmt) (c : FrameId) (s : State) (m : Run α) :
    Prop :=
  s.Sealed h body → s.Occupied c →
    m.Meets s (s.Encloses h body) (fun _ t => s.Still t) s.Still

namespace Run

variable {h : Host} {body : List Stmt} {c : FrameId} {s : State} {α β : Type}

/-- A single step that leaves frames and functions alone. -/
theorem encloses_atomic {run : State → Outcome α}
    (still : s.Sealed h body → s.Occupied c → ∀ t, (run s).state? = some t → s.Still t) :
    (atomic run).Encloses h body c s := fun hs hc =>
  meets_atomic (.still hs (.refl s))
    (fun _ t ht => have hst := still hs hc t (ht ▸ rfl); ⟨.still hs hst, hst⟩)
    (fun _ t ht => have hst := still hs hc t (ht ▸ rfl); ⟨.still hs hst, hst⟩)

theorem encloses_look (f : State → α) : (look f).Encloses h body c s :=
  encloses_atomic fun _ _ _ ht => Option.some.inj ht ▸ .refl _

theorem encloses_step {f : State → α × State}
    (still : s.Sealed h body → s.Occupied c → s.Still (f s).2) : (step f).Encloses h body c s :=
  encloses_atomic fun hs hc _ ht => Option.some.inj ht ▸ still hs hc

theorem encloses_change {f : State → State}
    (still : s.Sealed h body → s.Occupied c → s.Still (f s)) : (change f).Encloses h body c s :=
  encloses_atomic fun hs hc _ ht => Option.some.inj ht ▸ still hs hc

theorem encloses_write (id : CellId) (value : Value) (refused : Fault.Cause) :
    (write id value refused).Encloses h body c s :=
  encloses_atomic fun _ _ t ht => by
    split at ht
    · exact Option.some.inj ht ▸ .refl _
    · exact Option.some.inj ht ▸ ⟨rfl, .refl _⟩

/-- A single step in the store that leaves the procedures alone. -/
theorem encloses_stepStore {f : Store → α × Store} (same : s.store.SameProcedures (f s.store).2) :
    (step (·.stepStore f)).Encloses h body c s :=
  encloses_step fun _ _ => ⟨rfl, same⟩

theorem Encloses.bind {m : Run α} {next : α → Run β} (hm : m.Encloses h body c s)
    (hnext : ∀ a t, m s = .done a t → s.Still t → (next a).Encloses h body c t) :
    (m >>= next).Encloses h body c s := fun hs hc =>
  Meets.bind (hm hs hc) fun a t hr hst =>
    (hnext a t hr hst (hs.still hst) (hst.occupied hc)).mono (fun _ => .trans hst.beneath)
      (fun _ _ => hst.trans) fun _ => hst.trans

theorem Encloses.visiting {m : FrameId → Run α} (hm : (m c).Encloses h body c s) :
    (visiting c m).Encloses h body c s := fun hs hc =>
  Meets.visiting ⟨(State.Still.refl s).beneath, hs, fun _ visit => Act.visit.inj visit ▸ hc⟩
    (hm hs hc)

theorem Encloses.withObject {m : Run α} {object : CellId}
    (hm : m.Encloses h body c { s with objects := object :: s.objects }) :
    (withObject object m).Encloses h body c s := fun hs hc => by
  have inside : s.Still { s with objects := object :: s.objects } := .withObjects s _
  have outside {t : State} (ht : State.Still { s with objects := object :: s.objects } t) :
      s.Encloses h body (State.moment { t with objects := t.objects.tail }) ∧
        s.Still { t with objects := t.objects.tail } :=
    have behind := (inside.trans ht).trans (.withObjects t _)
    ⟨.still hs behind, behind⟩
  exact Meets.withObject (.still hs (.refl s))
    ((hm (hs.still inside) (inside.occupied hc)).mono (fun _ => .trans inside.beneath)
      (fun _ _ => outside) fun _ => outside)

/-- The frame of a call is set up step by step; what the body of the procedure declares is declared
in it; then the body runs in it. -/
theorem encloses_runProcedure {ev : Evaluator} {decl : Procedure} {home : FrameId}
    {args : List CellId} (hcall : ∃ id, s.store.function? id = some (.script decl home))
    (hbody : ∀ frame t, Stmt.EveryIn Stmt.KeepsExplicit decl.body →
      (ev.executeBody frame decl.body).Encloses h body frame t) :
    (ev.runProcedure decl home args).Encloses h body c s := fun hs _ => by
  obtain ⟨fid, stored⟩ := hcall
  obtain ⟨rfl, code⟩ := hs.procedures fid decl home stored
  have dropped : s.Still { s with objects := [] } := .withObjects s []
  have start : s.Encloses h body (State.moment { s with objects := [] }) := .still hs dropped
  have announced : s.Encloses h body ⟨.call decl pageFrame, { s with objects := [] }⟩ :=
    ⟨start.beneath, start.sealed, nofun⟩
  refine Meets.withoutObjects (.still hs (.refl s)) (Meets.about announced ?_)
  refine Meets.inCall start (fun _ => ⟨.still hs (.refl s), .refl s⟩) fun _ => ?_
  have entered := State.Calling.enter hs decl
  have marked := entered.setProcedure
  have mark := entered.opens.procedure_setProcedure decl.name
  have defined := marked.define rfl mark
  have mark := (marked.opens.procedure_bind decl.name ⟨s.store.cells.size⟩).trans mark
  have locals : ∀ pair ∈ decl.params.zip args, pair.1.name ∈ decl.localNames := fun pair hpair =>
    List.mem_cons_of_mem _ (List.mem_append_left _
      (List.mem_map_of_mem (List.of_mem_zip hpair).1))
  have bound := State.Calling.bindAll _ locals defined mark
  have mark := (State.Opens.procedure_bindAll (decl.params.zip args) defined.opens).trans mark
  have seen {t : State} (hst : s.Calling decl t) : s.Encloses h body t.moment :=
    ⟨hst.opens.beneath, hst.sealed hs stored, nofun⟩
  have visited {t : State} (hst : s.Calling decl t) : s.Encloses h body ⟨.visit s.nextFrame, t⟩ := by
    refine ⟨hst.opens.beneath, hst.sealed hs stored, ?_⟩
    rintro _ ⟨⟩
    exact hst.occupied hs
  refine Meets.bind (q := fun _ t => t = _)
    (Meets.visiting (visited entered) (meets_change (seen entered) (seen marked) rfl)) ?_
  rintro _ _ - rfl
  refine Meets.bind (q := fun _ t => t = _)
    (meets_declare (seen marked) (visited marked) (fun _ => ⟨seen defined, rfl⟩)
      fun refused => absurd (marked.opens.declarationFault? decl.name) refused) ?_
  rintro result _ - rfl
  refine Meets.bind (q := fun _ t => t = _)
    (Meets.visiting (visited defined) (meets_change (seen defined) (seen bound) rfl)) ?_
  rintro _ _ - rfl
  -- The state behind the call is the one before it as far as frames and functions are concerned.
  have left {u : State} (hu : s.Beneath u) : s.Encloses h body (u.leave s.nextFrame).moment ∧
      s.Encloses h body (State.moment { u.leave s.nextFrame with objects := s.objects }) ∧
        s.Still { u.leave s.nextFrame with objects := s.objects } :=
    ⟨.still hs ⟨hu.leave.frames, hu.leave.procedures⟩, .still hs hu.leave, hu.leave⟩
  have occupied {u : State} (hu : s.Beneath u) (size : u.frames.size = s.frames.size + 1) :
      u.Occupied s.nextFrame := ⟨(bound.occupied hs).1, size ▸ Nat.lt_succ_self _⟩
  refine Meets.bind (q := fun _ t => State.Hoists Stmt.KeepsExplicit s.nextFrame
      (Stmt.hoistedIn decl.body) _ t)
    ((Stmt.hoists_declareBody code _).mono (fun m hm => ?_) (fun _ _ ht => ht) fun t ht =>
      left (bound.opens.beneath.hoist ht mark)) ?_
  · have beneath := bound.opens.beneath.hoist hm.1 mark
    exact ⟨beneath, bound.hoist hs stored hm.1 mark, fun id visit =>
      hm.2 id visit ▸ occupied beneath (hm.1.size.trans bound.opens.size)⟩
  · intro _ t _ ht
    have beneath := bound.opens.beneath.hoist ht mark
    refine Meets.bind (q := fun _ u => t.Still u)
      ((hbody s.nextFrame t code (bound.hoist hs stored ht mark)
        (occupied beneath (ht.size.trans bound.opens.size))).mono (fun _ => .trans beneath)
          (fun _ _ hu => hu) fun u hu => left (beneath.trans hu.beneath)) ?_
    intro _ u _ hu
    have beneath := beneath.trans hu.beneath
    exact meets_pure ⟨beneath, (bound.hoist hs stored ht mark).still hu, nofun⟩ (left beneath)

/-- Whatever native functions do, they leave frames and procedures alone. -/
theorem encloses_native (service : Service) (held args : List CellId) :
    (service.call held args).Encloses h body c s := by
  have rules : Deed.Rules (fun _ => True) fun s m => m.Encloses h body c s :=
    { pure := fun _ => encloses_atomic fun _ _ _ ht => Option.some.inj ht ▸ .refl _
      fail := fun _ => encloses_atomic fun _ _ _ ht => Option.some.inj ht ▸ .refl _
      look := encloses_look
      tick := encloses_step fun _ _ => ⟨rfl, .refl _⟩
      newObject := encloses_stepStore (.of_eq fun _ => rfl)
      newCell := fun _ _ => encloses_stepStore (.of_eq fun _ => rfl)
      write := fun {s} id v => encloses_step fun _ _ => by
        unfold State.write
        split
        · exact .refl s
        · exact ⟨rfl, .refl _⟩
      addMember := fun id name cell => encloses_stepStore (.of_eq fun f => by
        obtain same | ⟨-, same⟩ := Store.addMember_cases _ id name cell <;> rw [same]
        rfl)
      putMember := fun _ _ _ => encloses_change fun _ _ => ⟨rfl, .refl _⟩
      respond := fun _ => encloses_change fun _ _ => ⟨rfl, .refl _⟩
      addLine := fun _ => encloses_change fun _ _ => ⟨rfl, .refl _⟩
      failAt := fun _ => encloses_atomic fun _ _ _ ht => Option.some.inj ht ▸ .refl _
      newNative := fun _ _ _ => encloses_stepStore (.newNative _ _ _ _)
      bind := fun hm hnext => hm.bind fun a t hr _ => hnext a t hr }
  exact rules.has_call (service.does_of_forall fun _ => trivial) held args

end Run

/-- A procedure of which there are calls is among the functions of a state. -/
def State.KeepsProcedure (s : State) (f : Callable) : Prop :=
  ∀ decl home, f = .script decl home → ∃ id, s.store.function? id = some (.script decl home)

theorem State.keepsProcedure {s : State} {id : FunctionId} {f : Callable}
    (stored : s.store.function? id = some f) : s.KeepsProcedure f :=
  fun _ _ same => ⟨id, same ▸ stored⟩

open Run in
/-- To change no frame where all frames but that of the host are explicit. -/
def Conduct.explicit (h : Host) (body : List Stmt) : Conduct where
  Has c s m := m.Encloses h body c s
  code := Stmt.KeepsExplicit
  evaluator _ := True
  callable := State.KeepsProcedure
  has_pure _ := encloses_atomic fun _ _ _ ht => Option.some.inj ht ▸ .refl _
  has_fail _ := encloses_atomic fun _ _ _ ht => Option.some.inj ht ▸ .refl _
  has_exhausted := encloses_atomic fun _ _ _ ht => nomatch ht
  has_look := encloses_look
  has_newCell _ := encloses_stepStore (.of_eq fun _ => rfl)
  has_memberOrNew _ _ := encloses_stepStore (.of_eq Store.function?_memberOrNew)
  has_write := encloses_write
  has_resolve name := encloses_step fun hs hc => hs.resolve hc name true ▸ .refl _
  has_setExplicit {_ _ span on} hcode := encloses_change fun hs hc => by
    cases on with
    | false => exact absurd rfl (hcode span)
    | true => exact ⟨hs.setExplicit hc, .refl _⟩
  has_bind hm hnext := hm.bind fun a t hr _ => hnext a t hr
  has_visiting := Encloses.visiting
  has_within _ _ hm hs hc := (hm hs hc).within _
  has_withObject _ := Encloses.withObject
  callable_stored := State.keepsProcedure
  has_bind_callable hm hcall hnext := hm.bind fun a t _ hst =>
    hnext a t fun decl home same => (hcall decl home same).imp fun id stored =>
      (hst.procedures id decl home).mpr stored
  has_native {_ _ _ service held} _ args := encloses_native service held args
  has_call _ hcall hbody := encloses_runProcedure (hcall _ _ rfl) fun frame t code =>
    hbody frame t code.throughout

/-! ## Names where all have to be declared -/

namespace State

variable {h : Host} {body : List Stmt} {c : FrameId} {s : State} {α : Type} {bound : Nat}

/-- Goes on with the cell that a name is bound to in a frame or in the nearest ancestor that has it;
a name that has none is a fault, and nothing is changed. -/
def findThen (s : State) (c : FrameId) (name : Name) (next : CellId → Run α) : Outcome α :=
  match s.lookup c name.text with
  | some cell => next cell s
  | none => .failed (.of (.undeclared name.text)) s

theorem Sealed.variableCell (hs : s.Sealed h body) (hc : s.Occupied c) (name : Name) :
    Evaluator.variableCell c name s = s.findThen c name pure := by
  have looked : (Run.visiting c fun c => Run.step fun s => s.resolve c name true) s =
      .done (s.lookup c name.text) s := by
    change (match s.resolve c name true with | (a, t) => Outcome.done a t) = _
    rw [hs.resolve hc]
  refine (Run.bind_of_done looked).trans ?_
  unfold findThen
  cases s.lookup c name.text with
  | some cell => rfl
  | none => rfl

theorem Sealed.variableCell_bind (hs : s.Sealed h body) (hc : s.Occupied c) (name : Name)
    (next : CellId → Run α) :
    (Evaluator.variableCell c name >>= next) s = s.findThen c name next := by
  have evaluated := hs.variableCell hc name
  unfold findThen at evaluated ⊢
  cases found : s.lookup c name.text with
  | some cell =>
    rw [found] at evaluated
    exact Run.bind_of_done evaluated
  | none =>
    rw [found] at evaluated
    exact Run.bind_of_failed evaluated

open Evaluator in
/-- Wherever a name is evaluated, it is found or undeclared.  There is one field for each place at
which the machine evaluates a name. -/
structure FindsNames (s : State) (c : FrameId) (bound : Nat) : Prop where
  read : ∀ span name, (ofBound (bound + 1)).evaluate c (.var span name) s = s.findThen c name pure
  assign : ∀ {span place name value r v}, (ofBound (bound + 1)).operandValue c value r = .done v s →
    (ofBound (bound + 2)).execute c (.assign span (.var place name) value) r =
      s.findThen c name fun cell => Run.write cell v (.readonlyWrite (Expr.var place name).display)
  passed : ∀ {param arg span name}, param.byRef = true → arg.byValue = false →
    arg.value = .var span name → (ofBound (bound + 1)).passed c param arg s = s.findThen c name pure
  called : ∀ {span name}, recursionCell? s c (.var span name) = none →
    (ofBound (bound + 1)).calledValue c (.var span name) s = s.findThen c name Run.read
  /-- A call of the procedure that is running finds it in an ancestor of its frame. -/
  recalled : ∀ {span name cell}, recursionCell? s c (.var span name) = some cell →
    (ofBound (bound + 1)).calledValue c (.var span name) s = .done (s.store.read cell) s
  count : ∀ {span var first last step body r r' r'' x y z},
    (ofBound bound).operandNumber c first r = .done x r' →
      (ofBound bound).operandNumber c last r' = .done y r'' →
        (ofBound bound).operandNumber c step r'' = .done z s →
          (ofBound (bound + 1)).execute c (.count span var first last step body) r =
            s.findThen c var fun counter => do
              Run.write counter (.number x) (.readonlyWrite var.text)
              Run.repeatWhile bound ((ofBound bound).countPass c var counter y z body)
  each : ∀ {span var collection body r id},
    (ofBound bound).operandValue c collection r = .done (.object id) s →
      (ofBound (bound + 1)).execute c (.forEach span var collection body) r =
        s.findThen c var fun element =>
          (ofBound bound).eachPass c var element body (s.store.members id).values

/-- Running code in a frame changes no frame that is there. -/
structure KeepsFrames (s : State) (c : FrameId) (bound : Nat) : Prop where
  evaluate : ∀ e m, ((Evaluator.ofBound bound).evaluate c e).visits s m →
    s.frames.Spares m.state.frames
  execute : ∀ stmt m, stmt.Every Stmt.KeepsExplicit →
    ((Evaluator.ofBound bound).execute c stmt).visits s m → s.frames.Spares m.state.frames

theorem Sealed.findsNames (hs : s.Sealed h body) (hc : s.Occupied c) (bound : Nat) :
    s.FindsNames c bound where
  read _ name := hs.variableCell hc name
  assign {_ _ name _ _ _} hvalue := (Run.bind_of_done hvalue).trans (hs.variableCell_bind hc name _)
  passed {param arg span name} byRef byValue value := by
    unfold Evaluator.passed
    rw [byRef, byValue, value]
    exact hs.variableCell hc name
  called {span name} other := by
    have here : (Run.visiting c fun c => Run.look (Evaluator.recursionCell? · c (.var span name))) s =
        .done none s := congrArg (Outcome.done · s) other
    exact (Run.bind_of_done here).trans (hs.variableCell_bind hc name _)
  recalled {span name cell} own := by
    have here : (Run.visiting c fun c => Run.look (Evaluator.recursionCell? · c (.var span name))) s =
        .done (some cell) s := congrArg (Outcome.done · s) own
    exact (Run.bind_of_done here).trans rfl
  count hfirst hlast hstep :=
    (Run.bind_of_done hfirst).trans <| (Run.bind_of_done hlast).trans <|
      (Run.bind_of_done hstep).trans (hs.variableCell_bind hc _ _)
  each hcollection :=
    (Run.bind_of_done hcollection).trans <|
      (Run.bind_of_done rfl).trans (hs.variableCell_bind hc _ _)

theorem Sealed.keepsFrames (hs : s.Sealed h body) (hc : s.Occupied c) (bound : Nat) :
    s.KeepsFrames c bound :=
  have obeys := Evaluator.obeys_ofBound (.explicit h body) bound fun _ _ => trivial
  ⟨fun e m hv => ((obeys.evaluate c e s hs hc).during m hv).beneath.frames,
    fun stmt m keeps hv => ((obeys.execute c stmt keeps.throughout s hs hc).during m hv).beneath.frames⟩

end State

/-! ## The run of a page -/

/-- Through the declarations of a page and through what it executes, all frames but that of the host
stay explicit, and only these are visited. -/
theorem State.Sealed.runBody {h : Host} {body : List Stmt} {s : State} (hs : s.Sealed h body)
    (hbody : Stmt.EveryIn Stmt.KeepsExplicit body) (bound : Nat) {m : Moment}
    (hv : ((Evaluator.ofBound bound).runBody pageFrame body).visits s m) :
    m.state.Sealed h body ∧ ∀ id, m.act = .visit id → m.state.Occupied id := by
  have occupied {t : State} (ht : t.Sealed h body) : t.Occupied pageFrame := ⟨nofun, ht.page_live⟩
  have hoisted := Stmt.hoists_declareBody (c := pageFrame) hbody s
  suffices ((Evaluator.ofBound bound).runBody pageFrame body).Meets s
      (fun m => m.state.Sealed h body ∧ ∀ id, m.act = .visit id → m.state.Occupied id)
      (fun _ _ => True) fun _ => True from this.during m hv
  refine Run.Meets.bind (q := fun _ t => t.Sealed h body)
    (hoisted.mono (fun m hm => ?_) (fun _ _ ht => hs.hoist ht (List.Subset.refl _))
      fun _ _ => trivial) fun _ t _ ht => ?_
  · have sealed := hs.hoist hm.1 (List.Subset.refl _)
    exact ⟨sealed, fun id visit => hm.2 id visit ▸ occupied sealed⟩
  · have obeys := Evaluator.obeys_ofBound (.explicit h body) bound fun _ _ => trivial
    exact (Evaluator.obeys_executeBody obeys hbody.throughout t ht (occupied ht)).mono
      (fun _ hm => ⟨hm.sealed, hm.occupied⟩) (fun _ _ _ => trivial) fun _ _ => trivial

end PageScript
