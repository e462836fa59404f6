import PageScript.Proofs.Machine.Balance
import PageScript.Proofs.Machine.Locality

/-!
# Proofs/Machine/Ancestry — frames are a forest ordered by their numbers

Frames are found by numbers that are used again, and releasing one drops all above it, whoever their
parents are.  Still the parent of a frame that is there is an older frame that is there, whatever
has been done to the frames: so each frame has a line of ancestors, along which names are looked up
(`State.isForest_of_reached`).
-/

namespace PageScript

namespace Frames

variable {fs gs : Frames} {id parent c d : FrameId} {name m : String} {chain : List FrameId}

/-- The cell of a folded name in a frame itself. -/
def own? (fs : Frames) (name : String) (id : FrameId) : Option CellId :=
  (fs.get id).bindings.get? name

/-- A frame with its ancestors, the nearest first. -/
inductive Chain (fs : Frames) : FrameId → List FrameId → Prop
  | root {id : FrameId} (top : fs.parent id = none) : Chain fs id [id]
  | child {id parent : FrameId} {rest : List FrameId} (step : fs.parent id = some parent)
    (above : Chain fs parent rest) :
    Chain fs id (id :: rest)

namespace Chain

/-- Ancestors depend on the parents only. -/
theorem congr (same : ∀ id ∈ chain, gs.parent id = fs.parent id) (h : fs.Chain id chain) :
    gs.Chain id chain := by
  induction h with
  | root top => exact .root ((same _ List.mem_cons_self).trans top)
  | child step _ ih =>
    exact .child ((same _ List.mem_cons_self).trans step)
      (ih fun id hid => same id (List.mem_cons_of_mem _ hid))

/-- **A name is looked up along the ancestors**, and the nearest one that binds it decides. -/
theorem lookupWithin_eq (h : fs.Chain id chain) (name : String) :
    ∀ {bound : Nat}, chain.length ≤ bound →
      fs.lookupWithin name bound id = chain.findSome? (fs.own? name) := by
  have here (id : FrameId) (bound : Nat) : fs.lookupWithin name (bound + 1) id =
      (fs.own? name id).or ((fs.parent id).bind (fs.lookupWithin name bound)) := by
    rw [lookupWithin, own?, parent]
    cases (fs.get id).bindings.get? name with
    | some cell => rfl
    | none => cases (fs.get id).parent <;> rfl
  induction h with
  | @root id top =>
    rintro (_ | bound) enough
    · cases enough
    · rw [here, top, List.findSome?_cons]
      cases fs.own? name id <;> rfl
  | @child id parent rest step _ ih =>
    rintro (_ | bound) enough
    · cases enough
    · rw [here, step, List.findSome?_cons, Option.bind_some, ih (Nat.le_of_succ_le_succ enough)]
      cases fs.own? name id <;> rfl

/-- The ancestors of a frame are no younger than it, so they are no more than fit below it. -/
theorem length_le (rooted : fs.Rooted) (h : fs.Chain id chain) (live : id.index < fs.size) :
    chain.length ≤ id.index + 1 ∧ ∀ f ∈ chain, f.index ≤ id.index := by
  induction h with
  | root => exact ⟨Nat.le_add_left _ _, fun f hf => Nat.le_of_eq (by rw [List.mem_singleton.mp hf])⟩
  | @child id parent rest step _ ih =>
    have older : parent.index < id.index := rooted id parent live step
    obtain ⟨short, below⟩ := ih (Nat.lt_trans older live)
    refine ⟨Nat.succ_le_succ (Nat.le_trans short older), fun f hf => ?_⟩
    rcases List.mem_cons.mp hf with rfl | hf
    · exact Nat.le_refl _
    · exact Nat.le_trans (below f hf) (Nat.le_of_lt older)

theorem lookup_eq (rooted : fs.Rooted) (h : fs.Chain id chain) (live : id.index < fs.size)
    (name : String) : fs.lookup id name = chain.findSome? (fs.own? name) :=
  h.lookupWithin_eq name (Nat.le_trans (h.length_le rooted live).1 live)

end Chain

/-- Where every frame sees older frames only, each one has ancestors up to one without parent. -/
theorem Rooted.exists_chain (rooted : fs.Rooted) :
    ∀ {n : Nat} {id : FrameId}, id.index ≤ n → id.index < fs.size → ∃ chain, fs.Chain id chain
  | n, id, le, live => by
    cases hparent : fs.parent id with
    | none => exact ⟨_, .root hparent⟩
    | some parent =>
      have older : parent.index < id.index := rooted id parent live hparent
      match n, Nat.lt_of_lt_of_le older le with
      | n + 1, below =>
        obtain ⟨chain, above⟩ :=
          rooted.exists_chain (Nat.le_of_lt_succ below) (Nat.lt_trans older live)
        exact ⟨_, .child hparent above⟩

/-! ## What an operation leaves as it was -/

theorem Rooted.empty : Frames.empty.Rooted := fun _ _ live => absurd live (Nat.not_lt_zero _)

/-- A new frame sees older frames, or none. -/
theorem Rooted.push (rooted : fs.Rooted) {f : Frame}
    (older : ∀ parent, f.parent = some parent → parent.index < fs.size) :
    (fs.push f).2.Rooted := by
  intro id parent live hparent
  rcases Nat.lt_or_eq_of_le (Nat.le_of_lt_succ (size_push ▸ live)) with below | top
  · rw [get_push_of_lt below] at hparent
    exact rooted id parent below hparent
  · have top : id = ⟨fs.size⟩ := congrArg FrameId.mk top
    rw [top, get_push_self] at hparent
    exact top ▸ older parent hparent

theorem Rooted.release (rooted : fs.Rooted) (id : FrameId) : (fs.release id).Rooted := by
  intro other parent live hparent
  obtain ⟨below, live⟩ := Nat.lt_min.mp (size_release ▸ live)
  rw [get_release_of_lt below] at hparent
  exact rooted other parent live hparent

/-- Frames with the same ancestors: as many, each with the parent that it had. -/
structure SameLines (fs gs : Frames) : Prop where
  size : gs.size = fs.size
  parent : ∀ id, gs.parent id = fs.parent id

theorem SameLines.rooted (same : fs.SameLines gs) (rooted : fs.Rooted) : gs.Rooted :=
  fun id parent live hparent =>
    rooted id parent (same.size ▸ live) ((same.parent id).symm.trans hparent)

theorem SameLines.modify {change : Frame → Frame} (kept : ∀ f, (change f).parent = f.parent) :
    fs.SameLines (fs.modify c change) := by
  refine ⟨size_modify, fun id => ?_⟩
  by_cases hc : c = id
  · subst hc
    rcases Nat.lt_or_ge c.index fs.size with live | dead
    · exact (congrArg Frame.parent (get_modify_self live)).trans (kept _)
    · have dead' : (fs.modify c change).size ≤ c.index := size_modify.symm ▸ dead
      rw [Frames.parent, Frames.parent, get_of_size_le dead, get_of_size_le dead']
  · exact congrArg Frame.parent (get_modify_of_ne hc)

/-- What is seen from a frame changes with its ancestors' bindings only. -/
theorem SameLines.lookup_eq (same : fs.SameLines gs) (rooted : fs.Rooted) (live : d.index < fs.size)
    (bindings : ∀ id, gs.own? m id = fs.own? m id) :
    gs.lookup d m = fs.lookup d m := by
  obtain ⟨chain, hchain⟩ := rooted.exists_chain (Nat.le_refl _) live
  have hchain' : gs.Chain d chain := hchain.congr fun id _ => same.parent id
  rw [hchain.lookup_eq rooted live, hchain'.lookup_eq (same.rooted rooted) (same.size ▸ live)]
  exact congrArg (chain.findSome? ·) (funext bindings)

/-- The first result along a list, where only one member's result has changed and is there now. -/
theorem find?_eq_of_findSome?_ne {α β : Type} [DecidableEq α] {a : α} {f g : α → Option β}
    (others : ∀ b, a ≠ b → g b = f b) (found : (g a).isSome) :
    ∀ {l : List α}, l.findSome? g ≠ l.findSome? f → l.find? (fun b => (g b).isSome) = some a
  | [], differ => absurd rfl differ
  | b :: l, differ => by
    by_cases hb : a = b
    · subst hb
      rw [List.find?_cons, found]
    · rw [List.findSome?_cons, List.findSome?_cons, others b hb] at differ
      rw [List.find?_cons, others b hb]
      cases hf : f b with
      | some result => simp only [hf, ne_eq, not_true] at differ
      | none =>
        simp only [hf] at differ
        exact find?_eq_of_findSome?_ne others found differ

/-- **A binding is seen where its frame is the nearest with the name**, and nowhere else. -/
theorem nearest_of_lookup_bind_ne (rooted : fs.Rooted) {name : Name} {cell : CellId}
    (live : id.index < fs.size) (hd : d.index < fs.size)
    (differ : (fs.bind id name cell).lookup d m ≠ fs.lookup d m) :
    m = name.text ∧ ∀ chain, (fs.bind id name cell).Chain d chain →
      chain.find? (fun f => ((fs.bind id name cell).own? m f).isSome) = some id := by
  have same : fs.SameLines (fs.bind id name cell) := .modify fun _ => rfl
  have others (m : String) (f : FrameId) (hf : id ≠ f) :
      (fs.bind id name cell).own? m f = fs.own? m f :=
    congrArg (Frame.bindings · |>.get? m) (get_modify_of_ne hf)
  have own (m : String) :
      (fs.bind id name cell).own? m id = ((fs.get id).bindings.insert name cell).get? m :=
    congrArg (Frame.bindings · |>.get? m) (get_modify_self live)
  obtain rfl : m = name.text := by
    by_contra hne
    refine differ (same.lookup_eq rooted hd fun f => ?_)
    by_cases hf : id = f
    · subst hf
      rw [own, Dictionary.get?_insert_of_ne _ (Ne.symm hne), own?]
    · exact others m f hf
  refine ⟨rfl, fun chain hchain => ?_⟩
  have hchain' : fs.Chain d chain := hchain.congr fun f _ => (same.parent f).symm
  rw [hchain.lookup_eq (same.rooted rooted) (same.size ▸ hd), hchain'.lookup_eq rooted hd] at differ
  have found : ((fs.bind id name cell).own? name.text id).isSome := by
    rw [own, Dictionary.get?_insert_self]
    rfl
  exact find?_eq_of_findSome?_ne (others name.text) found differ

end Frames

/-! ## Whatever is done to the frames -/

/-- What can be done to the frames of a state. -/
inductive FrameDeed where
  | pushRoot
  | pushChild (parent : FrameId)
  | release (id : FrameId)
  | declare (id : FrameId) (how : State.Declaration) (name : Name) (value : Value)
  | bind (id : FrameId) (name : Name) (cell : CellId)
  | resolve (id : FrameId) (name : Name) (mayDeclare : Bool)
  | setExplicit (id : FrameId) (on : Bool)
  | freeze (id : FrameId)
  | setProcedure (id : FrameId) (name : Name)

namespace FrameDeed

/-- The frame that a deed is done to, if it has to be there. -/
def frame? : FrameDeed → Option FrameId
  | pushRoot => none
  | pushChild id | release id | declare id .. | bind id .. | resolve id .. | setExplicit id _
  | freeze id | setProcedure id _ => some id

/-- The frame and the name that a deed may bind. -/
def binding? : FrameDeed → Option (FrameId × Name)
  | declare id _ name _ | bind id name _ | resolve id name _ => some (id, name)
  | pushRoot | pushChild _ | release _ | setExplicit .. | freeze _ | setProcedure .. => none

/-- The state behind a deed.  A declaration that is refused changes nothing. -/
def perform : FrameDeed → State → State
  | pushRoot, s => s.pushRoot.2
  | pushChild parent, s => (s.pushChild parent).2
  | release id, s => s.release id
  | declare id how name value, s => (Run.declare id how name value s).state?.getD s
  | bind id name cell, s => s.bind id name cell
  | resolve id name mayDeclare, s => (s.resolve id name mayDeclare).2
  | setExplicit id on, s => s.mapFrames (·.setExplicit id on)
  | freeze id, s => s.mapFrames (·.freeze id)
  | setProcedure id name, s => s.mapFrames (·.setProcedure id name)

/-- Whether the frame that a deed is done to is there. -/
def IsLive (deed : FrameDeed) (s : State) : Prop :=
  ∀ id, deed.frame? = some id → id.index < s.frames.size

end FrameDeed

/-- What a deed makes of frames, by what it may bind. -/
inductive Frames.Becomes (fs : Frames) : Option (FrameId × Name) → Frames → Prop
  | push (f : Frame) (older : ∀ parent, f.parent = some parent → parent.index < fs.size) :
    Becomes fs none (fs.push f).2
  | release (id : FrameId) : Becomes fs none (fs.release id)
  | bind (id : FrameId) (name : Name) (cell : CellId) (live : id.index < fs.size) :
    Becomes fs (some (id, name)) (fs.bind id name cell)
  | adjust (id : FrameId) (change : Frame → Frame) (live : id.index < fs.size)
    (parent : ∀ f, (change f).parent = f.parent)
    (bindings : ∀ f, (change f).bindings = f.bindings) : Becomes fs none (fs.modify id change)
  | refuse (id : FrameId) (name : Name) : Becomes fs (some (id, name)) fs

theorem FrameDeed.becomes_perform {deed : FrameDeed} {s : State} (live : deed.IsLive s) :
    s.frames.Becomes deed.binding? (deed.perform s).frames := by
  cases deed with
  | pushRoot => exact .push _ fun _ h => nomatch h
  | pushChild parent => exact .push _ fun _ h => Option.some.inj h ▸ live parent rfl
  | release id => exact .release id
  | declare id how name value =>
    cases h : s.declarationFault? id how name with
    | some cause =>
      have refused : Run.declare id how name value s = .failed (.of cause) s := by
        simp only [Run.declare, Run.visiting, Run.about, Run.through, Run.atomic, h]
      rw [perform, refused]
      exact .refuse id name
    | none =>
      rw [perform, Run.declare_of_free h]
      exact .bind id name _ (live id rfl)
  | bind id name cell => exact .bind id name cell (live id rfl)
  | resolve id name mayDeclare =>
    rcases s.resolve_cases id name mayDeclare with same | ⟨-, made⟩
    · rw [perform, same]
      exact .refuse id name
    · rw [perform, made]
      exact .bind id name _ (live id rfl)
  | setExplicit id on => exact .adjust id _ (live id rfl) (fun _ => rfl) fun _ => rfl
  | freeze id => exact .adjust id _ (live id rfl) (fun _ => rfl) fun _ => rfl
  | setProcedure id name => exact .adjust id _ (live id rfl) (fun _ => rfl) fun _ => rfl

namespace Frames.Becomes

variable {fs gs : Frames} {binding? : Option (FrameId × Name)} {d : FrameId} {m : String}

theorem rooted (h : fs.Becomes binding? gs) (rooted : fs.Rooted) : gs.Rooted := by
  cases h with
  | push f older => exact rooted.push older
  | release id => exact rooted.release id
  | bind id name cell _ =>
    have same : fs.SameLines (fs.bind id name cell) := .modify fun _ => rfl
    exact same.rooted rooted
  | adjust id change _ parent _ => exact (SameLines.modify parent).rooted rooted
  | refuse => exact rooted

/-- Names are seen otherwise from a frame that stays only where the deed binds them. -/
theorem nearest_of_lookup_ne (h : fs.Becomes binding? gs) (rooted : fs.Rooted)
    (live : d.index < fs.size) (live' : d.index < gs.size)
    (differ : gs.lookup d m ≠ fs.lookup d m) :
    ∃ id name, binding? = some (id, name) ∧ m = name.text ∧
      ∀ chain, gs.Chain d chain → chain.find? (fun f => (gs.own? m f).isSome) = some id := by
  cases h with
  | push f older => exact absurd ((Spares.push fs f).lookup_eq rooted live m) differ
  | release id =>
    have spares : (fs.release id).Spares fs := by
      refine ⟨size_release ▸ Nat.min_le_right _ _, fun f hf => ?_⟩
      exact (get_release_of_lt (Nat.lt_min.mp (size_release ▸ hf)).1).symm
    exact absurd (spares.lookup_eq (rooted.release id) live' m).symm differ
  | bind id name cell hid =>
    exact ⟨id, name, rfl, nearest_of_lookup_bind_ne rooted hid live differ⟩
  | adjust id change hid parent bindings =>
    refine absurd ((SameLines.modify parent).lookup_eq rooted live fun f => ?_) differ
    by_cases hf : id = f
    · subst hf
      exact congrArg (fun d : Dictionary CellId => d.get? m)
        ((congrArg Frame.bindings (get_modify_self hid)).trans (bindings _))
    · exact congrArg (Frame.bindings · |>.get? m) (get_modify_of_ne hf)
  | refuse => exact absurd rfl differ

end Frames.Becomes

namespace State

/-- The states that are reached from one without frames, each deed being done to a frame that is
there. -/
inductive Reached : State → Prop
  | start {s : State} (none : s.frames = .empty) : Reached s
  | perform {s : State} (deed : FrameDeed) (live : deed.IsLive s) (before : Reached s) :
    Reached (deed.perform s)

/-- The frames are a forest, older frames nearer to the roots, and stay one. -/
structure IsForest (s : State) : Prop where
  /-- Parents are older frames that are there. -/
  parent : ∀ id parent, id.index < s.frames.size → s.frames.parent id = some parent →
    parent.index < s.frames.size ∧ parent.index < id.index
  /-- A lookup ends, having looked at the frame and its ancestors and at no frame twice: it answers
  with what the nearest one binds, or with nothing if none of them binds the name. -/
  lookup : ∀ id, id.index < s.frames.size → ∃ chain, s.frames.Chain id chain ∧
    chain.length ≤ s.frames.size ∧ (∀ f ∈ chain, f.index < s.frames.size) ∧
    ∀ name, s.lookup id name = chain.findSome? (s.frames.own? name) ∧
      ∀ bound, chain.length ≤ bound → s.frames.lookupWithin name bound id = s.lookup id name
  /-- Releasing a frame drops it and all younger ones and leaves the older ones as they are. -/
  release : ∀ id, id.index < s.frames.size → (s.release id).frames.size = id.index ∧
    ∀ other, other.index < id.index → (s.release id).frames.get other = s.frames.get other
  /-- From a frame that stays, a name is seen otherwise behind a deed only if the deed binds it in
  the nearest ancestor that has it then. -/
  binding : ∀ deed : FrameDeed, deed.IsLive s → ∀ d m, d.index < s.frames.size →
    d.index < (deed.perform s).frames.size → (deed.perform s).lookup d m ≠ s.lookup d m →
      ∃ id name, deed.binding? = some (id, name) ∧ m = name.text ∧
        ∀ chain, (deed.perform s).frames.Chain d chain →
          chain.find? (fun f => ((deed.perform s).frames.own? m f).isSome) = some id

variable {s : State}

theorem Reached.rooted (reached : s.Reached) : s.frames.Rooted := by
  induction reached with
  | start none => exact none ▸ Frames.Rooted.empty
  | perform deed live _ ih => exact (deed.becomes_perform live).rooted ih

/-- **Frames are a forest ordered by their numbers**, whatever has been done to them. -/
theorem isForest_of_reached (reached : s.Reached) : s.IsForest where
  parent id parent live hparent :=
    have older := reached.rooted id parent live hparent
    ⟨Nat.lt_trans older live, older⟩
  lookup id live := by
    have rooted := reached.rooted
    obtain ⟨chain, hchain⟩ := rooted.exists_chain (Nat.le_refl _) live
    obtain ⟨short, below⟩ := hchain.length_le rooted live
    refine ⟨chain, hchain, Nat.le_trans short live, ?_, fun name => ?_⟩
    · exact fun f hf => Nat.lt_of_le_of_lt (below f hf) live
    · have found : s.lookup id name = chain.findSome? (s.frames.own? name) :=
        hchain.lookup_eq rooted live name
      exact ⟨found, fun bound enough => (hchain.lookupWithin_eq name enough).trans found.symm⟩
  release id live :=
    ⟨Frames.size_release.trans (Nat.min_eq_left (Nat.le_of_lt live)),
      fun _ => Frames.get_release_of_lt⟩
  binding deed live _ _ hd hd' differ :=
    (deed.becomes_perform live).nearest_of_lookup_ne reached.rooted hd hd' differ

/-- A root, a child of it, and a name in the root. -/
theorem isForest_of_reached_child :
    let s := (FrameDeed.declare ⟨0⟩ .unique (.ofString "x") .empty).perform
      ((FrameDeed.pushChild ⟨0⟩).perform (FrameDeed.pushRoot.perform (.start (.new .empty) 8)))
    s.Reached ∧ s.IsForest ∧ s.lookup ⟨1⟩ "x" = some ⟨0⟩ := by
  intro s
  have root : Reached (FrameDeed.pushRoot.perform (.start (.new .empty) 8)) :=
    .perform _ (fun _ h => nomatch h) (.start rfl)
  have child := root.perform (.pushChild ⟨0⟩) fun id h => Option.some.inj h ▸ Nat.one_pos
  have reached : s.Reached :=
    child.perform (.declare ⟨0⟩ .unique (.ofString "x") .empty) fun id h =>
      Option.some.inj h ▸ Nat.two_pos
  exact ⟨reached, isForest_of_reached reached, by decide +kernel⟩

end State

end PageScript
