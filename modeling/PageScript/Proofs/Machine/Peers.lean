import PageScript.Proofs.Machine.Accord

/-!
# Proofs/Machine/Peers — states that look the same

Two states look the same to a script if their stores hold the same under a pairing and each frame has
the same names bound to corresponding cells, in whatever order they were declared.  Whatever else is in
one of the stores has no partner, so that nothing leads to it; and what had been written before, a
`Residue`, may stand in front of what has been written in the second state.  Every step keeps such states
alike (`State.Alike.accord`), so the same code has the same result from both, writes the same, and fails
with the same fault at the same place.

What is asked of the stores may be more than that corresponding things hold the same, if all steps keep
it (`Store.Steady`).  States are *peers* if also their objects have the same numbers and all that they
have written is the same.
-/

namespace PageScript

variable {π ρ : Pairing} {S : Pairing → Store → Store → Prop}

/-! ## Stores -/

namespace Store

/-- Related stores hold the same, and what is done on both sides keeps them related. -/
structure Steady (S : Pairing → Store → Store → Prop) : Prop where
  twins : ∀ {π s t}, S π s t → s.Twins π t
  newCell : ∀ {π s t v w}, S π s t → v.Twins π w → ∀ readonly,
    S (π.addCell (s.newCell v readonly).1 (t.newCell w readonly).1) (s.newCell v readonly).2
      (t.newCell w readonly).2
  newObject : ∀ {π s t}, S π s t →
    S (π.addObject s.newObject.1 t.newObject.1) s.newObject.2 t.newObject.2
  newFunction : ∀ {π s t f g}, S π s t → f.Twins π g →
    S (π.addFunction (s.newFunction f).1 (t.newFunction g).1) (s.newFunction f).2 (t.newFunction g).2
  put : ∀ {π s t a b v w}, S π s t → π.cell a b → v.Twins π w → S π (s.put a v) (t.put b w)
  putMember : ∀ {π s t o o' a b}, S π s t → π.object o o' → π.cell a b → ∀ name,
    S π (s.putMember o name a) (t.putMember o' name b)

theorem Steady.memberOrNew (K : Steady S) {s t : Store} (h : S π s t) {o o' : ObjectId}
    (ho : π.object o o') (name : Name) :
    ∃ ρ, π ≤ ρ ∧ S ρ (s.memberOrNew o name).2 (t.memberOrNew o' name).2 ∧
      ρ.cell (s.memberOrNew o name).1 (t.memberOrNew o' name).1 := by
  have found := ((K.twins h).members ho).get? name.text
  unfold Store.memberOrNew
  generalize (s.members o).get? name.text = a, (t.members o').get? name.text = b at found
  cases found with
  | some hab => exact ⟨π, le_refl π, h, hab⟩
  | none =>
    exact ⟨_, Pairing.le_addCell,
      K.putMember (K.newCell h (.plain (v := .empty) rfl) false) ho Pairing.addCell_self name,
      Pairing.addCell_self⟩

theorem steady_twins : Steady Store.Twins where
  twins h := h
  newCell h hv := h.newCell hv
  newObject h := h.newObject
  newFunction h := h.newFunction
  put h := h.put
  putMember h ho hab name := h.putMember ho name hab

/-- Corresponding cells, objects and functions hold the same, and objects that correspond have the same
number. -/
structure Peers (π : Pairing) (s t : Store) : Prop extends s.Twins π t where
  numbered : ∀ {a b}, π.object a b → a = b
  objectCount : s.objects.size = t.objects.size

theorem steady_peers : Steady Store.Peers where
  twins h := h.toTwins
  newCell h hv readonly := ⟨h.toTwins.newCell hv readonly, h.numbered, h.objectCount⟩
  newObject h :=
    { toTwins := h.toTwins.newObject
      numbered := Or.rec h.numbered fun ⟨left, right⟩ =>
        left.trans ((congrArg ObjectId.mk h.objectCount).trans right.symm)
      objectCount :=
        (Array.size_push _).trans ((congrArg (· + 1) h.objectCount).trans (Array.size_push _).symm) }
  newFunction h hfg := ⟨h.toTwins.newFunction hfg, h.numbered, h.objectCount⟩
  put h hab hv := ⟨h.toTwins.put hab hv, h.numbered, h.objectCount⟩
  putMember h ho hab name :=
    ⟨h.toTwins.putMember ho name hab, h.numbered,
      Array.size_modify.trans (h.objectCount.trans Array.size_modify.symm)⟩

end Store

/-! ## States -/

/-- The response with another one behind it. -/
def Response.append (r later : Response) : Response := ⟨r.body ++ later.body, r.headers ++ later.headers⟩

theorem Response.append_empty (r : Response) : r.append .empty = r :=
  congrArg₂ Response.mk String.append_empty (List.append_nil _)

theorem Response.empty_append (r : Response) : empty.append r = r :=
  congrArg₂ Response.mk String.empty_append (List.nil_append _)

/-- What had been written before: a response and the lines of the log. -/
structure Residue where
  response : Response
  log : List String

/-- Two states look the same to a script, and what has been written in the second one is the residue
with what has been written in the first one behind it. -/
structure State.Alike (S : Pairing → Store → Store → Prop) (r : Residue) (π : Pairing) (s t : State) :
    Prop where
  store : S π s.store t.store
  frames : s.frames.Pointwise (Frame.Peers π.cell) t.frames
  objects : List.Forall₂ π.cell s.objects t.objects
  depth : s.depth = t.depth
  limit : s.limit = t.limit
  request : s.world.request = t.world.request
  clock : s.world.clock = t.world.clock
  response : t.world.response = r.response.append s.world.response
  log : t.world.log = s.world.log ++ r.log

namespace State.Alike

variable {r : Residue} {s t : State}

theorem mapStore (h : s.Alike S r π t) (hle : π ≤ ρ) {f g : Store → Store}
    (store : S ρ (f s.store) (g t.store)) : (s.mapStore f).Alike S r ρ (t.mapStore g) where
  store := store
  frames := ⟨h.frames.size, fun id => (h.frames.get id).mono fun _ _ => hle.cell⟩
  objects := h.objects.imp fun _ _ => hle.cell
  depth := h.depth
  limit := h.limit
  request := h.request
  clock := h.clock
  response := h.response
  log := h.log

theorem mapFrames (h : s.Alike S r π t) {f g : Frames → Frames}
    (frames : (f s.frames).Pointwise (Frame.Peers π.cell) (g t.frames)) :
    (s.mapFrames f).Alike S r π (t.mapFrames g) :=
  { h with frames }

theorem mapResponse (h : s.Alike S r π t) {f : Response → Response}
    (hf : ∀ a b : Response, f (a.append b) = a.append (f b)) :
    (s.mapResponse f).Alike S r π (t.mapResponse f) :=
  { h with response := (congrArg f h.response).trans (hf _ _) }

/-- **States that are alike look the same**, and every step keeps them alike. -/
theorem accord (K : Store.Steady S) (r : Residue) : Accord (State.Alike S r) where
  oneCell h := (K.twins h.store).oneCell
  oneObject h := (K.twins h.store).oneObject
  oneFunction h := (K.twins h.store).oneFunction
  cell h hab := ((K.twins h.store).cells hab).2.2
  members h hab := (K.twins h.store).members hab
  function? h hab := by
    obtain ⟨f, g, hf, hg, twins⟩ := (K.twins h.store).functions hab
    rw [hf, hg]
    exact .some twins
  frames h := h.frames
  objects h := h.objects
  depth h := h.depth
  limit h := h.limit
  request h := h.request
  clock h := h.clock
  newCell {π s t v w} h hv readonly :=
    ⟨_, Pairing.le_addCell,
      h.mapStore (f := fun s => (s.newCell v readonly).2) (g := fun t => (t.newCell w readonly).2)
        Pairing.le_addCell (K.newCell h.store hv readonly), Pairing.addCell_self⟩
  newObject h :=
    ⟨_, Pairing.le_addObject,
      h.mapStore (f := fun s => s.newObject.2) (g := fun t => t.newObject.2) Pairing.le_addObject
        (K.newObject h.store), Pairing.addObject_self⟩
  newFunction {π s t f g} h hfg :=
    ⟨_, Pairing.le_addFunction,
      h.mapStore (f := fun s => (s.newFunction f).2) (g := fun t => (t.newFunction g).2)
        Pairing.le_addFunction (K.newFunction h.store hfg), Pairing.addFunction_self⟩
  memberOrNew {π s t a b} h hab name := by
    obtain ⟨ρ, hle, store, hcell⟩ := K.memberOrNew h.store hab name
    exact ⟨ρ, hle, h.mapStore (f := fun s => (s.memberOrNew a name).2)
      (g := fun t => (t.memberOrNew b name).2) hle store, hcell⟩
  putMember h ho hab name := h.mapStore (le_refl _) (K.putMember h.store ho hab name)
  tick h :=
    { h with clock := congrArg (fun (clock : Nat → Float) n => clock (n + 1)) h.clock }
  put h hab hv := h.mapStore (le_refl _) (K.put h.store hab hv)
  bind h hab id name := h.mapFrames (h.frames.modify fun hid => hid.bind hab name)
  setExplicit h id on := h.mapFrames (h.frames.modify fun hid => { hid with explicit := rfl })
  setProcedure h id name := h.mapFrames (h.frames.modify fun hid => { hid with procedure := rfl })
  respond h text := h.mapResponse fun a b => by
    simp only [Response.write, Response.append, String.append_assoc]
  addHeader h name value := h.mapResponse fun a b => by
    simp only [Response.addHeader, Response.append, List.append_assoc]
  addLine h line := { h with log := congrArg (line :: ·) h.log }
  withObjects h hos := { h with objects := hos }
  enter h parent :=
    { h with
      frames := h.frames.pushChild (h.frames.get parent).explicit fun _ => .refl nofun
      depth := congrArg (· + 1) h.depth }
  leave h id := { h with frames := h.frames.release, depth := congrArg (· - 1) h.depth }

end State.Alike

/-- Two states that hold the same, in cells and functions with perhaps other numbers. -/
structure State.Peers (π : Pairing) (s t : State) : Prop where
  store : s.store.Peers π t.store
  frames : s.frames.Pointwise (Frame.Peers π.cell) t.frames
  objects : List.Forall₂ π.cell s.objects t.objects
  depth : s.depth = t.depth
  limit : s.limit = t.limit
  request : s.world.request = t.world.request
  clock : s.world.clock = t.world.clock
  response : s.world.response = t.world.response
  log : s.world.log = t.world.log

/-- Peers are alike with nothing written before. -/
theorem State.peers_iff_alike {s t : State} :
    s.Peers π t ↔ s.Alike Store.Peers ⟨.empty, []⟩ π t := by
  constructor
  · intro h
    exact { h with
      response := h.response.symm.trans (Response.empty_append _).symm
      log := h.log.symm.trans (List.append_nil _).symm }
  · intro h
    exact { h with
      response := (h.response.trans (Response.empty_append _)).symm
      log := (h.log.trans (List.append_nil _)).symm }

/-- **Peers look the same**, and every step keeps them peers. -/
theorem State.Peers.accord : Accord State.Peers := by
  have same : State.Peers = State.Alike Store.Peers ⟨.empty, []⟩ :=
    funext fun _ => funext fun _ => funext fun _ => propext peers_iff_alike
  exact same ▸ Alike.accord Store.steady_peers _

end PageScript
