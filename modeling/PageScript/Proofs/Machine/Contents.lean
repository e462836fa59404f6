import PageScript.Proofs.Machine.Deeds

/-!
# Proofs/Machine/Contents — what is in a store after a step

What each step on the store leaves in its cells, objects and functions, and what every step leaves
as it is: read-only cells, functions, and members of objects unless native functions replace them
(`Store.Extends`).
-/

namespace PageScript

namespace Store

variable {s t u : Store}

/-! ## Cells -/

theorem cell_newCell (s : Store) (v : Value) (readonly : Bool) (id : CellId) :
    (s.newCell v readonly).2.cell id =
      if id.index = s.cells.size then ⟨v, readonly⟩ else s.cell id := by
  change (s.cells.push ⟨v, readonly⟩)[id.index]?.getD default = _
  rw [Array.getElem?_push]
  split <;> rfl

theorem cell_newCell_of_lt {id : CellId} (h : id.index < s.cells.size) (v : Value)
    (readonly : Bool) : (s.newCell v readonly).2.cell id = s.cell id := by
  rw [cell_newCell, if_neg (Nat.ne_of_lt h)]

theorem cell_newCell_self (s : Store) (v : Value) (readonly : Bool) :
    (s.newCell v readonly).2.cell ⟨s.cells.size⟩ = ⟨v, readonly⟩ := by
  rw [cell_newCell, if_pos rfl]

theorem cell_put_self {id : CellId} (h : id.index < s.cells.size) (v : Value) :
    (s.put id v).cell id = ⟨v, (s.cell id).readonly⟩ := by
  change (s.cells.modify id.index fun c => { c with value := v })[id.index]?.getD default = _
  rw [Array.getElem?_modify, if_pos rfl, Array.getElem?_eq_getElem h]
  simp only [Option.map_some, Option.getD_some, cell, Array.getElem?_eq_getElem h]

theorem cell_put_of_ne {id other : CellId} (h : other ≠ id) (v : Value) :
    (s.put id v).cell other = s.cell other := by
  have h : id.index ≠ other.index := fun same => h (congrArg CellId.mk same.symm)
  change (s.cells.modify id.index fun c => { c with value := v })[other.index]?.getD default = _
  rw [Array.getElem?_modify, if_neg h]
  rfl

/-- No write changes which cells are read-only. -/
theorem isReadonly_put (s : Store) (id : CellId) (v : Value) (other : CellId) :
    (s.put id v).isReadonly other = s.isReadonly other := by
  change ((s.cells.modify id.index fun c => { c with value := v })[other.index]?.getD default).readonly =
    (s.cells[other.index]?.getD default).readonly
  rw [Array.getElem?_modify]
  split
  · cases s.cells[other.index]? <;> rfl
  · rfl

theorem getElem?_cells {id : CellId} (h : id.index < s.cells.size) :
    s.cells[id.index]? = some (s.cell id) := by
  rw [cell, Array.getElem?_eq_getElem h, Option.getD_some]

/-- A cell that was never made is writable. -/
theorem lt_of_isReadonly {id : CellId} (h : s.isReadonly id = true) :
    id.index < s.cells.size := by
  refine Nat.lt_of_not_le fun beyond => ?_
  have unmade : s.cells[id.index]? = none := Array.getElem?_eq_none beyond
  simp only [isReadonly, cell, unmade] at h
  exact absurd h (by decide)

/-! ## Objects -/

theorem members_newObject_of_lt {id : ObjectId} (h : id.index < s.objects.size) :
    s.newObject.2.members id = s.members id := by
  change (s.objects.push .empty)[id.index]?.getD .empty = _
  rw [Array.getElem?_push, if_neg (Nat.ne_of_lt h)]
  rfl

theorem members_newObject_self (s : Store) : s.newObject.2.members ⟨s.objects.size⟩ = .empty := by
  change (s.objects.push .empty)[s.objects.size]?.getD .empty = _
  rw [Array.getElem?_push, if_pos rfl]
  rfl

theorem members_putMember_self {id : ObjectId} (h : id.index < s.objects.size) (name : Name)
    (cell : CellId) :
    (s.putMember id name cell).members id = (s.members id).insert name cell := by
  change (s.objects.modify id.index fun d => d.insert name cell)[id.index]?.getD .empty = _
  rw [Array.getElem?_modify, if_pos rfl, members, Array.getElem?_eq_getElem h]
  rfl

theorem members_putMember_of_ne {id other : ObjectId} (h : other ≠ id) (name : Name)
    (cell : CellId) : (s.putMember id name cell).members other = s.members other := by
  have h : id.index ≠ other.index := fun same => h (congrArg ObjectId.mk same.symm)
  change (s.objects.modify id.index fun d => d.insert name cell)[other.index]?.getD .empty = _
  rw [Array.getElem?_modify, if_neg h]
  rfl

theorem getElem?_objects {id : ObjectId} (h : id.index < s.objects.size) :
    s.objects[id.index]? = some (s.members id) := by
  rw [members, Array.getElem?_eq_getElem h, Option.getD_some]

/-- An object that was never made has no members. -/
theorem lt_of_get?_members {id : ObjectId} {folded : String} {cell : CellId}
    (h : (s.members id).get? folded = some cell) : id.index < s.objects.size := by
  refine Nat.lt_of_not_le fun beyond => ?_
  simp only [members, Array.getElem?_eq_none beyond] at h
  nomatch h

/-! ## Functions -/

theorem function?_newFunction_of_lt {id : FunctionId} (h : id.index < s.functions.size)
    (f : Callable) : (s.newFunction f).2.function? id = s.function? id := by
  change (s.functions.push f)[id.index]? = _
  rw [Array.getElem?_push, if_neg (Nat.ne_of_lt h)]
  rfl

theorem function?_newFunction_self (s : Store) (f : Callable) :
    (s.newFunction f).2.function? ⟨s.functions.size⟩ = some f := by
  change (s.functions.push f)[s.functions.size]? = _
  rw [Array.getElem?_push, if_pos rfl]

theorem lt_of_function? {id : FunctionId} {f : Callable} (h : s.function? id = some f) :
    id.index < s.functions.size :=
  Nat.lt_of_not_le fun beyond => nomatch (Array.getElem?_eq_none beyond).symm.trans h

/-! ## What stays -/

/-- The store has what another one has for good: its read-only cells with their values, its functions
and, unless native functions replace them, the members of its objects.  Its native functions do nothing
that the others do not do. -/
structure Extends (s t : Store) : Prop where
  readonly : ∀ {id}, s.isReadonly id = true → t.cell id = s.cell id
  members : s.Does (·.replaces = false) → ∀ {id name cell}, (s.members id).get? name = some cell →
    (t.members id).get? name = some cell
  functions : ∀ {id f}, s.function? id = some f → t.function? id = some f
  natives : ∀ {p}, s.Does p → t.Does p

theorem Extends.refl (s : Store) : s.Extends s := ⟨fun _ => rfl, fun _ _ _ _ h => h, fun h => h, fun h => h⟩

theorem Extends.trans (h : s.Extends t) (h' : t.Extends u) : s.Extends u where
  readonly hid := by
    have kept := h.readonly hid
    rw [← kept]
    exact h'.readonly (by rw [isReadonly, kept]; exact hid)
  members spared _ _ _ hname := h'.members (h.natives spared) (h.members spared hname)
  functions hid := h'.functions (h.functions hid)
  natives does := h'.natives (h.natives does)

/-- The other store has no native functions that do anything else. -/
theorem Extends.does (h : s.Extends t) {p : Deed → Prop} (does : t.Does p) : s.Does p :=
  fun id f stored => does id f (h.functions stored)

theorem extends_newCell (s : Store) (v : Value) (readonly : Bool) :
    s.Extends (s.newCell v readonly).2 where
  readonly hid := cell_newCell_of_lt (lt_of_isReadonly hid) v readonly
  members _ _ _ _ h := h
  functions h := h
  natives h := h

theorem extends_put {id : CellId} (h : s.isReadonly id = false) (v : Value) :
    s.Extends (s.put id v) where
  readonly hother := cell_put_of_ne (fun same => by rw [same, h] at hother; nomatch hother) v
  members _ _ _ _ h := h
  functions h := h
  natives h := h

theorem extends_newObject (s : Store) : s.Extends s.newObject.2 where
  readonly _ := rfl
  members _ id name cell h := by
    rwa [members_newObject_of_lt (lt_of_get?_members h)]
  functions h := h
  natives h := h

/-- A new function is all that is new among the functions. -/
theorem Does.newFunction {p : Deed → Prop} (h : s.Does p) {f : Callable} (hf : f.Does p) :
    (s.newFunction f).2.Does p := by
  intro id g found
  change (s.functions.push f)[id.index]? = some g at found
  rw [Array.getElem?_push] at found
  split at found
  · exact Option.some.inj found ▸ hf
  · exact h id g found

theorem extends_newFunction (s : Store) {f : Callable} (h : ∀ {p}, s.Does p → f.Does p) :
    s.Extends (s.newFunction f).2 where
  readonly _ := rfl
  members _ _ _ _ h := h
  functions h := (function?_newFunction_of_lt (lt_of_function? h) f).trans h
  natives does := does.newFunction (h does)

/-- A member is put in place of another one only by native functions that replace members. -/
theorem extends_putMember {id : ObjectId} {name : Name} {cell : CellId}
    (h : s.Does (·.replaces = false) → (s.members id).get? name.text = none) :
    s.Extends (s.putMember id name cell) where
  readonly _ := rfl
  members spared other folded found hfound := by
    by_cases same : other = id
    · subst same
      rw [members_putMember_self (lt_of_get?_members hfound), Dictionary.get?_insert_of_ne]
      · exact hfound
      · rintro rfl
        nomatch (h spared).symm.trans hfound
    · rwa [members_putMember_of_ne same]
  functions h := h
  natives h := h

theorem addMember_cases (s : Store) (id : ObjectId) (name : Name) (cell : CellId) :
    (s.addMember id name cell).2 = s ∨ (s.members id).get? name.text = none ∧
      (s.addMember id name cell).2 = s.putMember id name cell := by
  unfold addMember
  split
  · exact .inl rfl
  · rename_i unbound
    exact .inr ⟨unbound, rfl⟩

/-! ## What happens in time -/

/-- The store extends another one, which has none of its cells under another rule on writes: it may
be what has become of it. -/
structure Grows (s t : Store) : Prop extends s.Extends t where
  cells : s.cells.size ≤ t.cells.size
  objects : s.objects.size ≤ t.objects.size
  rule : ∀ {id : CellId}, id.index < s.cells.size → t.isReadonly id = s.isReadonly id

namespace Grows

theorem refl (s : Store) : s.Grows s := ⟨.refl s, Nat.le_refl _, Nat.le_refl _, fun _ => rfl⟩

theorem trans (h : s.Grows t) (h' : t.Grows u) : s.Grows u :=
  ⟨h.toExtends.trans h'.toExtends, Nat.le_trans h.cells h'.cells,
    Nat.le_trans h.objects h'.objects,
    fun hid => (h'.rule (Nat.lt_of_lt_of_le hid h.cells)).trans (h.rule hid)⟩

/-- A read-only cell that two stores have is the same in both, whichever became of the other. -/
theorem cell_eq (h : s.Grows t ∨ t.Grows s) {id : CellId} (hid : s.isReadonly id = true)
    (made : id.index < t.cells.size) : t.cell id = s.cell id := by
  obtain h | h := h
  · exact h.readonly hid
  · exact (h.readonly ((h.rule made).symm.trans hid)).symm

end Grows

theorem grows_newCell (s : Store) (v : Value) (readonly : Bool) :
    s.Grows (s.newCell v readonly).2 where
  toExtends := s.extends_newCell v readonly
  cells := Nat.le_of_lt (Nat.lt_of_lt_of_eq (Nat.lt_succ_self _) (Array.size_push _).symm)
  objects := Nat.le_refl _
  rule hid := congrArg Cell.readonly (cell_newCell_of_lt hid v readonly)

theorem grows_put {id : CellId} (h : s.isReadonly id = false) (v : Value) :
    s.Grows (s.put id v) where
  toExtends := extends_put h v
  cells := Nat.le_of_eq Array.size_modify.symm
  objects := Nat.le_refl _
  rule {other} _ := s.isReadonly_put id v other

theorem grows_newObject (s : Store) : s.Grows s.newObject.2 :=
  ⟨s.extends_newObject, Nat.le_refl _,
    Nat.le_of_lt (Nat.lt_of_lt_of_eq (Nat.lt_succ_self _) (Array.size_push _).symm), fun _ => rfl⟩

theorem grows_newFunction (s : Store) {f : Callable} (h : ∀ {p}, s.Does p → f.Does p) :
    s.Grows (s.newFunction f).2 :=
  ⟨s.extends_newFunction h, Nat.le_refl _, Nat.le_refl _, fun _ => rfl⟩

theorem grows_putMember {id : ObjectId} {name : Name}
    (h : s.Does (·.replaces = false) → (s.members id).get? name.text = none) (cell : CellId) :
    s.Grows (s.putMember id name cell) :=
  ⟨extends_putMember h, Nat.le_refl _, Nat.le_of_eq Array.size_modify.symm, fun _ => rfl⟩

theorem grows_addMember (s : Store) (id : ObjectId) (name : Name) (cell : CellId) :
    s.Grows (s.addMember id name cell).2 := by
  obtain same | ⟨unbound, same⟩ := s.addMember_cases id name cell
  · rw [same]
    exact .refl s
  · rw [same]
    exact grows_putMember (fun _ => unbound) cell

theorem grows_memberOrNew (s : Store) (id : ObjectId) (name : Name) :
    s.Grows (s.memberOrNew id name).2 := by
  unfold memberOrNew
  split
  · exact .refl s
  · rename_i unbound
    exact (s.grows_newCell .empty false).trans
      (grows_putMember (s := (s.newCell .empty false).2) (fun _ => unbound) _)

end Store

/-- What all native functions of a state do, any of its functions does. -/
theorem State.does_all {s : State} {id : FunctionId} {f : Callable}
    (stored : s.store.function? id = some f) :
    f.Does fun deed => ∀ p, s.store.Does p → p deed := by
  cases f with
  | script => trivial
  | native name service held =>
    exact fun n => Routine.does_all ⟨_, fun _ f _ => f.does_true⟩ fun p does => does id _ stored n

theorem State.addMember_of_get? {s : State} {id : ObjectId} {name : Name} {other : CellId}
    (h : (s.store.members id).get? name.text = some other) (cell : CellId) :
    s.addMember id name cell = (false, s) := by
  change s.stepStore (·.addMember id name cell) = _
  have same : s.store.addMember id name cell = (false, s.store) := by rw [Store.addMember, h]
  obtain ⟨⟨store, _, _, _, _⟩, _, _, _, _⟩ := s
  simp only [State.stepStore, State.store] at same ⊢
  rw [same]

theorem State.addMember_of_get?_eq_none {s : State} {id : ObjectId} {name : Name}
    (h : (s.store.members id).get? name.text = none) (cell : CellId) :
    s.addMember id name cell = (true, s.putMember id name cell) := by
  have same : s.store.addMember id name cell = (true, s.store.putMember id name cell) := by
    rw [Store.addMember, h]
  obtain ⟨⟨store, _, _, _, _⟩, _, _, _, _⟩ := s
  simp only [State.addMember, State.stepStore, State.store] at same ⊢
  rw [same]
  rfl

/-- A cell is made a member only where there is none of the name. -/
theorem State.addMember_cases (s : State) (id : ObjectId) (name : Name) (cell : CellId) :
    (s.addMember id name cell).2 = s ∨ (s.store.members id).get? name.text = none ∧
      (s.addMember id name cell).2 = s.putMember id name cell := by
  cases found : (s.store.members id).get? name.text with
  | some => exact .inl (congrArg Prod.snd (addMember_of_get? found cell))
  | none => exact .inr ⟨rfl, congrArg Prod.snd (addMember_of_get?_eq_none found cell)⟩

end PageScript
