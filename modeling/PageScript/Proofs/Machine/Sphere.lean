import PageScript.Machine.Evaluation
import PageScript.Proofs.Machine.Contents
import PageScript.Proofs.Machine.Settling
import PageScript.Proofs.Syntax.Nesting

/-!
# Proofs/Machine/Sphere — what a run can get hold of

A `Sphere` is a part of a state that no run leaves: cells, objects and functions such that frames
and members lead to cells of the sphere only, cells of the sphere hold references into it only, and
all code that its functions run has some property.  Whatever is made later belongs to it, and what
cells outside it hold does not change.  A state that lies within a sphere still does after every
single step (`State.Within`), so a run that starts there never meets other code or other cells.
`Sphere.Holds` is the judgement for families of runs that this leads to, with one rule for each way
to build a run.
-/

namespace PageScript

/-- The fault of executing an include directive without its file. -/
def Include.unresolved (d : Include) : Fault.Cause :=
  .unsupported ("unresolved #include \"" ++ d.path ++ "\"")

/-- What runs at a certain depth may touch: cells, objects, and functions whose code has a property
at every statement. -/
structure Sphere where
  code : Stmt → Prop
  cell : CellId → Prop
  object : ObjectId → Prop
  function : FunctionId → Prop
  /-- The number of calls that are running. -/
  depth : Nat
  /-- The largest number of calls allowed at a time. -/
  limit : Nat
  /-- What cells outside the sphere hold. -/
  content : CellId → Cell

namespace Sphere

variable (S : Sphere)

/-- The references that a value is lie in the sphere. -/
def value : Value → Prop
  | .object id => S.object id
  | .function id => S.function id
  | _ => True

/-- A function runs code of the sphere only, or holds cells of the sphere only. -/
def callable : Callable → Prop
  | .native _ _ held => ∀ cell ∈ held, S.cell cell
  | .script decl _ => Stmt.EveryIn S.code decl.body

/-- The sphere of what a call runs. -/
def deeper : Sphere := { S with depth := S.depth + 1 }

/-- Code of the sphere does not repeat anything for as long as it likes. -/
def total : Prop := ∀ stmt, S.code stmt → stmt.isLoop = false

/-- Code of the sphere does not fail for want of an included file. -/
def fails (cause : Fault.Cause) : Prop :=
  (∀ stmt, S.code stmt → stmt.isUnresolved = false) → ∀ d : Include, cause ≠ d.unresolved

end Sphere

/-- The store holds, as far as a sphere reaches, nothing from outside it. -/
structure Store.Within (s : Store) (S : Sphere) : Prop where
  values : ∀ {id}, S.cell id → S.value (s.read id)
  members : ∀ {id cell}, S.object id → cell ∈ (s.members id).values → S.cell cell
  functions : ∀ {id f}, S.function id → s.function? id = some f → S.callable f
  newCells : ∀ id : CellId, s.cells.size ≤ id.index → S.cell id
  newObjects : ∀ id : ObjectId, s.objects.size ≤ id.index → S.object id
  newFunctions : ∀ id : FunctionId, s.functions.size ≤ id.index → S.function id
  outside : ∀ {id}, ¬S.cell id → s.cell id = S.content id

/-- The names of all frames lead into a sphere. -/
structure Frames.Within (fs : Frames) (S : Sphere) : Prop where
  bound : ∀ (id : FrameId) (name : String) (cell : CellId),
    (fs.get id).bindings.get? name = some cell → S.cell cell

/-- A state lies within a sphere. -/
structure State.Within (s : State) (S : Sphere) : Prop where
  store : s.store.Within S
  frames : s.frames.Within S
  objects : ∀ cell ∈ s.objects, S.cell cell
  depth : s.depth = S.depth
  limit : s.limit = S.limit

variable {S : Sphere}

/-! ## Entries of dictionaries -/

namespace Dictionary

variable {α : Type} {d : Dictionary α} {name : Name} {entry a : α}

theorem mem_values_of_get? {folded : String} (h : d.get? folded = some a) : a ∈ d.values := by
  obtain ⟨name, mem, same⟩ := (d.inStep.keys folded).mp (h ▸ rfl)
  exact List.mem_filterMap.mpr ⟨name, mem, same ▸ h⟩

theorem get?_insert_cases {folded : String} (h : (d.insert name entry).get? folded = some a) :
    a = entry ∨ d.get? folded = some a := by
  by_cases hname : name.text = folded
  · subst hname
    rw [get?_insert_self] at h
    exact .inl (Option.some.inj h).symm
  · rw [get?_insert_of_ne d hname] at h
    exact .inr h

theorem mem_values_insert (h : a ∈ (d.insert name entry).values) : a = entry ∨ a ∈ d.values := by
  obtain ⟨key, -, found⟩ := List.mem_filterMap.mp h
  exact (get?_insert_cases found).imp_right mem_values_of_get?

end Dictionary

/-! ## The store -/

namespace Store.Within

variable {s : Store}

theorem newCell (h : s.Within S) {v : Value} (hv : S.value v) (readonly : Bool) :
    (s.newCell v readonly).2.Within S ∧ S.cell (s.newCell v readonly).1 where
  left := by
    refine { h with values := fun {id} hid => ?_, newCells := fun id hid => ?_,
                    outside := fun {id} hid => ?_ }
    · change S.value ((s.cells.push ⟨v, readonly⟩)[id.index]?.getD default).value
      rw [Array.getElem?_push]
      split
      · exact hv
      · exact h.values hid
    · have hid : (s.cells.push ⟨v, readonly⟩).size ≤ id.index := hid
      rw [Array.size_push] at hid
      exact h.newCells id (Nat.le_of_succ_le hid)
    · have old : id.index < s.cells.size := Nat.lt_of_not_le fun new => hid (h.newCells id new)
      rw [cell_newCell_of_lt old]
      exact h.outside hid
  right := h.newCells _ (Nat.le_refl _)

theorem put (h : s.Within S) {id : CellId} (hid : S.cell id) {v : Value} (hv : S.value v) :
    (s.put id v).Within S where
  values {other} hother := by
    change S.value
      ((s.cells.modify id.index fun c => { c with value := v })[other.index]?.getD default).value
    rw [Array.getElem?_modify]
    split
    · cases hcell : s.cells[other.index]? with
      | none => trivial
      | some c => exact hv
    · exact h.values hother
  members := h.members
  functions := h.functions
  newCells other hother := by
    have hother : (s.cells.modify id.index fun c => { c with value := v }).size ≤ other.index :=
      hother
    rw [Array.size_modify] at hother
    exact h.newCells other hother
  newObjects := h.newObjects
  newFunctions := h.newFunctions
  outside {other} hother := by
    have apart : other ≠ id := fun same => hother (same ▸ hid)
    rw [cell_put_of_ne apart]
    exact h.outside hother

theorem newObject (h : s.Within S) :
    s.newObject.2.Within S ∧ S.object s.newObject.1 where
  left := by
    refine { h with members := fun {id cell} hid hcell => ?_, newObjects := fun id hid => ?_ }
    · change cell ∈ ((s.objects.push .empty)[id.index]?.getD .empty).values at hcell
      rw [Array.getElem?_push] at hcell
      split at hcell
      · nomatch hcell
      · exact h.members hid hcell
    · have hid : (s.objects.push .empty).size ≤ id.index := hid
      rw [Array.size_push] at hid
      exact h.newObjects id (Nat.le_of_succ_le hid)
  right := h.newObjects _ (Nat.le_refl _)

theorem newFunction (h : s.Within S) {f : Callable} (hf : S.callable f) :
    (s.newFunction f).2.Within S ∧ S.function (s.newFunction f).1 where
  left := by
    refine { h with functions := fun {id g} hid hg => ?_, newFunctions := fun id hid => ?_ }
    · change (s.functions.push f)[id.index]? = some g at hg
      rw [Array.getElem?_push] at hg
      split at hg
      · cases hg
        exact hf
      · exact h.functions hid hg
    · have hid : (s.functions.push f).size ≤ id.index := hid
      rw [Array.size_push] at hid
      exact h.newFunctions id (Nat.le_of_succ_le hid)
  right := h.newFunctions _ (Nat.le_refl _)

theorem putMember (h : s.Within S) {id : ObjectId} {name : Name} {cell : CellId}
    (hcell : S.cell cell) : (s.putMember id name cell).Within S where
  values := h.values
  members {other c} hother hc := by
    change c ∈ ((s.objects.modify id.index fun d => d.insert name cell)[other.index]?.getD
      .empty).values at hc
    rw [Array.getElem?_modify] at hc
    split at hc
    · rename_i hid
      cases hobject : s.objects[other.index]? with
      | none =>
        rw [hobject] at hc
        nomatch hc
      | some d =>
        rw [hobject] at hc
        obtain rfl | hc := Dictionary.mem_values_insert hc
        · exact hcell
        · refine h.members hother ?_
          simp only [Store.members, hobject]
          exact hc
    · exact h.members hother hc
  functions := h.functions
  newCells := h.newCells
  newObjects other hother := by
    have hother : (s.objects.modify id.index fun d => d.insert name cell).size ≤ other.index :=
      hother
    rw [Array.size_modify] at hother
    exact h.newObjects other hother
  newFunctions := h.newFunctions
  outside := h.outside

theorem memberOrNew (h : s.Within S) {id : ObjectId} (hid : S.object id) (name : Name) :
    (s.memberOrNew id name).2.Within S ∧ S.cell (s.memberOrNew id name).1 := by
  unfold Store.memberOrNew
  split
  · rename_i found
    exact ⟨h, h.members hid (Dictionary.mem_values_of_get? found)⟩
  · obtain ⟨made, hcell⟩ := h.newCell (v := .empty) trivial false
    exact ⟨made.putMember hcell, hcell⟩

theorem addMember (h : s.Within S) (id : ObjectId) (name : Name) {cell : CellId}
    (hcell : S.cell cell) : (s.addMember id name cell).2.Within S := by
  obtain same | ⟨-, same⟩ := s.addMember_cases id name cell
  · rwa [same]
  · rw [same]
    exact h.putMember hcell

theorem bareCall (h : s.Within S) {v : Value} (hv : S.value v) {decl : Procedure} {home : FrameId}
    (found : s.bareCall? v = some (decl, home)) : Stmt.EveryIn S.code decl.body := by
  unfold bareCall? at found
  split at found
  · split at found
    · rename_i stored
      split at found
      · cases found
        exact h.functions hv stored
      · cases found
    · cases found
  · cases found

end Store.Within

/-! ## Frames -/

namespace Frames

variable {fs : Frames} {id : FrameId} {name : String} {cell : CellId}

/-- A name is seen because some frame binds it. -/
theorem bound_of_lookupWithin :
    ∀ {bound : Nat} {id : FrameId}, fs.lookupWithin name bound id = some cell →
      ∃ frame, (fs.get frame).bindings.get? name = some cell
  | 0, _, h => nomatch h
  | bound + 1, id, h => by
    unfold lookupWithin at h
    split at h
    · rename_i found
      cases h
      exact ⟨id, found⟩
    · split at h
      · exact bound_of_lookupWithin h
      · cases h

namespace Within

theorem lookup (h : fs.Within S) (found : fs.lookup id name = some cell) : S.cell cell := by
  obtain ⟨frame, hframe⟩ := bound_of_lookupWithin found
  exact h.bound frame name cell hframe

/-- Frames may change as long as their names lead where they led, or into the sphere. -/
theorem modify (h : fs.Within S) {change : Frame → Frame}
    (hchange : ∀ f name cell, (change f).bindings.get? name = some cell →
      S.cell cell ∨ f.bindings.get? name = some cell) : (fs.modify id change).Within S := by
  refine ⟨fun other name cell found => ?_⟩
  by_cases hid : id = other
  · subst hid
    by_cases live : id.index < fs.size
    · rw [get_modify_self live] at found
      exact (hchange _ _ _ found).elim (fun hcell => hcell) (h.bound id name cell)
    · have beyond : (fs.modify id change).size ≤ id.index :=
        Nat.le_trans (Nat.le_of_eq size_modify) (Nat.le_of_not_lt live)
      rw [get_of_size_le beyond] at found
      nomatch found
  · rw [get_modify_of_ne hid] at found
    exact h.bound other name cell found

theorem bind (h : fs.Within S) (hcell : S.cell cell) (name : Name) :
    (fs.bind id name cell).Within S := by
  refine h.modify fun f other c found => ?_
  obtain rfl | found := Dictionary.get?_insert_cases found
  · exact .inl hcell
  · exact .inr found

/-- A new frame without names does no harm. -/
theorem pushChild (h : fs.Within S) (parent : FrameId) : (fs.pushChild parent).2.Within S := by
  refine ⟨fun other name cell found => ?_⟩
  obtain live | heq | above := Nat.lt_trichotomy other.index fs.size
  · rw [Frames.pushChild, get_push_of_lt live] at found
    exact h.bound other name cell found
  · obtain rfl : other = ⟨fs.size⟩ := congrArg FrameId.mk heq
    rw [Frames.pushChild, get_push_self] at found
    nomatch found
  · have beyond : (fs.pushChild parent).2.size ≤ other.index :=
      Nat.le_trans (Nat.le_of_eq size_push) above
    rw [get_of_size_le beyond] at found
    nomatch found

theorem release (h : fs.Within S) : (fs.release id).Within S := by
  refine ⟨fun other name cell found => ?_⟩
  obtain below | above := Nat.lt_or_ge other.index id.index
  · rw [get_release_of_lt below] at found
    exact h.bound other name cell found
  · have beyond : (fs.release id).size ≤ other.index :=
      Nat.le_trans (Nat.le_of_eq size_release) (Nat.le_trans (Nat.min_le_left _ _) above)
    rw [get_of_size_le beyond] at found
    nomatch found

end Within

end Frames

/-! ## States -/

namespace State.Within

variable {s : State} {c : FrameId}

theorem withStore (h : s.Within S) {t : State} (store : t.store.Within S)
    (frames : t.frames = s.frames) (objects : t.objects = s.objects) (depth : t.depth = s.depth)
    (limit : t.limit = s.limit) : t.Within S :=
  ⟨store, frames ▸ h.frames, objects ▸ h.objects, depth.trans h.depth, limit.trans h.limit⟩

theorem newCell (h : s.Within S) {v : Value} (hv : S.value v) (readonly : Bool) :
    (s.newCell v readonly).2.Within S ∧ S.cell (s.newCell v readonly).1 :=
  have made := h.store.newCell hv readonly
  ⟨h.withStore made.1 rfl rfl rfl rfl, made.2⟩

theorem put (h : s.Within S) {id : CellId} (hid : S.cell id) {v : Value} (hv : S.value v) :
    (s.put id v).Within S :=
  h.withStore (h.store.put hid hv) rfl rfl rfl rfl

theorem newObject (h : s.Within S) : s.newObject.2.Within S ∧ S.object s.newObject.1 :=
  ⟨h.withStore h.store.newObject.1 rfl rfl rfl rfl, h.store.newObject.2⟩

theorem newFunction (h : s.Within S) {f : Callable} (hf : S.callable f) :
    (s.newFunction f).2.Within S ∧ S.function (s.newFunction f).1 :=
  have made := h.store.newFunction hf
  ⟨h.withStore made.1 rfl rfl rfl rfl, made.2⟩

theorem memberOrNew (h : s.Within S) {id : ObjectId} (hid : S.object id) (name : Name) :
    (s.memberOrNew id name).2.Within S ∧ S.cell (s.memberOrNew id name).1 :=
  have made := h.store.memberOrNew hid name
  ⟨h.withStore made.1 rfl rfl rfl rfl, made.2⟩

theorem putMember (h : s.Within S) (id : ObjectId) (name : Name) {cell : CellId}
    (hcell : S.cell cell) : (s.putMember id name cell).Within S :=
  h.withStore (h.store.putMember hcell) rfl rfl rfl rfl

theorem addMember (h : s.Within S) (id : ObjectId) (name : Name) {cell : CellId}
    (hcell : S.cell cell) : (s.addMember id name cell).2.Within S :=
  h.withStore (h.store.addMember id name hcell) rfl rfl rfl rfl

theorem write (h : s.Within S) {id : CellId} (hid : S.cell id) {v : Value} (hv : S.value v) :
    (s.write id v).2.Within S := by
  unfold State.write
  split
  · exact h
  · exact h.put hid hv

theorem withFrames (h : s.Within S) {change : Frames → Frames} (frames : (change s.frames).Within S) :
    (s.mapFrames change).Within S :=
  ⟨h.store, frames, h.objects, h.depth, h.limit⟩

theorem bind (h : s.Within S) {cell : CellId} (hcell : S.cell cell) (name : Name) :
    (s.bind c name cell).Within S :=
  h.withFrames (h.frames.bind hcell name)

theorem define (h : s.Within S) {how : Declaration} {name : Name} {v : Value} (hv : S.value v) :
    (s.define c how name v).2.Within S ∧ S.cell (s.define c how name v).1 :=
  have made := h.newCell hv (how == .readonly)
  ⟨made.1.bind made.2 name, made.2⟩

theorem resolve (h : s.Within S) (name : Name) {mayDeclare : Bool} :
    (s.resolve c name mayDeclare).2.Within S ∧
      ∀ cell, (s.resolve c name mayDeclare).1 = some cell → S.cell cell := by
  unfold State.resolve
  split
  · rename_i found
    refine ⟨h, fun cell hcell => ?_⟩
    cases hcell
    exact h.frames.lookup found
  · dsimp only
    split
    · exact ⟨h, nofun⟩
    · obtain ⟨made, hcell⟩ := h.newCell (v := .empty) trivial false
      exact ⟨made.bind hcell name, fun _ heq => Option.some.inj heq ▸ hcell⟩

theorem bindAll : ∀ (pairs : List (Param × CellId)) {s : State}, s.Within S →
    (∀ pair ∈ pairs, S.cell pair.2) →
      (pairs.foldl (fun s (p, cell) => s.bind c p.name cell) s).Within S
  | [], _, h, _ => h
  | (p, _) :: rest, _, h, hcells =>
    bindAll rest (h.bind (hcells _ List.mem_cons_self) p.name) fun pair hpair =>
      hcells pair (List.mem_cons_of_mem _ hpair)

theorem withObjects (h : s.Within S) {objects : List CellId}
    (hobjects : ∀ cell ∈ objects, S.cell cell) : { s with objects := objects }.Within S :=
  ⟨h.store, h.frames, hobjects, h.depth, h.limit⟩

theorem enter (h : s.Within S) (parent : FrameId) : (s.enter parent).2.Within S.deeper :=
  ⟨⟨h.store.values, h.store.members, h.store.functions, h.store.newCells, h.store.newObjects,
    h.store.newFunctions, h.store.outside⟩, ⟨(h.frames.pushChild parent).bound⟩, h.objects,
    congrArg (· + 1) h.depth, h.limit⟩

theorem leave (h : s.Within S.deeper) (id : FrameId) : (s.leave id).Within S :=
  ⟨⟨h.store.values, h.store.members, h.store.functions, h.store.newCells, h.store.newObjects,
    h.store.newFunctions, h.store.outside⟩, ⟨h.frames.release.bound⟩, h.objects,
    congrArg (· - 1) h.depth, h.limit⟩

end State.Within

end PageScript
