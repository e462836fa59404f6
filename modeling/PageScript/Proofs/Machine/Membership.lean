import PageScript.Proofs.Machine.Results

/-!
# Proofs/Machine/Membership — what becomes of the members of an object

A dictionary is edited in two ways (`Edit`): an entry is put under a name, or the entry there is asked
for and made if there is none.  Each keeps the two indexes in step (`Indexes.InStep.edit`) and gives a
place behind the others to a new name only, so after any edits the order is that of the first insertions
(`Indexes.order_after`), and a name leads to the entry that was put there last.  A store edits the
members of one object at a time, and a run makes edits only (`Discipline.membership`): it asks for
members, unless native functions replace some.
-/

namespace PageScript

variable {α : Type}

/-! ## Edits -/

/-- What is done to the indexes of a dictionary. -/
inductive Edit (α : Type) where
  /-- Puts an entry under a name, in place of an earlier one. -/
  | insert (name : Name) (entry : α)
  /-- Asks for the entry under a name, and puts one there if there is none. -/
  | getOrInsert (name : Name) (fresh : α)

namespace Edit

def name : Edit α → Name
  | insert name _ | getOrInsert name _ => name

/-- The entry that is put under the name, if one is. -/
def entry : Edit α → α
  | insert _ entry | getOrInsert _ entry => entry

/-- Whether an entry that is there is replaced. -/
def replaces : Edit α → Bool
  | insert _ _ => true
  | getOrInsert _ _ => false

end Edit

namespace Indexes

variable {x : Indexes α} {e : Edit α} {edits : List (Edit α)} {name : Name} {a fresh : α}
  {folded : String}

/-- The entry under a name, and the indexes with a fresh one there if there is none. -/
def getOrInsert (x : Indexes α) (name : Name) (fresh : α) : α × Indexes α :=
  match x.get? name.text with
  | some entry => (entry, x)
  | none => (fresh, x.insert name fresh)

/-- The indexes after an edit. -/
def edit (x : Indexes α) : Edit α → Indexes α
  | .insert name entry => x.insert name entry
  | .getOrInsert name fresh => (x.getOrInsert name fresh).2

/-- The indexes after edits, one after the other. -/
def after (x : Indexes α) (edits : List (Edit α)) : Indexes α := edits.foldl edit x

theorem after_append (x : Indexes α) (edits more : List (Edit α)) :
    x.after (edits ++ more) = (x.after edits).after more :=
  List.foldl_append

theorem getOrInsert_of_some (h : x.get? name.text = some a) (fresh : α) :
    x.getOrInsert name fresh = (a, x) := by
  rw [getOrInsert, h]

theorem getOrInsert_of_none (h : x.get? name.text = none) (fresh : α) :
    x.getOrInsert name fresh = (fresh, x.insert name fresh) := by
  rw [getOrInsert, h]

/-- An edit inserts its entry, or it asks for one that is there. -/
theorem edit_cases (x : Indexes α) (e : Edit α) :
    x.edit e = x.insert e.name e.entry ∧ (e.replaces = true ∨ x.get? e.name.text = none) ∨
      x.edit e = x ∧ e.replaces = false ∧ (x.get? e.name.text).isSome := by
  cases e with
  | insert name entry => exact .inl ⟨rfl, .inl rfl⟩
  | getOrInsert name fresh =>
    cases found : x.get? name.text with
    | none =>
      exact .inl ⟨congrArg Prod.snd (getOrInsert_of_none found fresh), .inr found⟩
    | some a =>
      refine .inr ⟨congrArg Prod.snd (getOrInsert_of_some found fresh), rfl, ?_⟩
      exact congrArg Option.isSome found

/-! ### The order -/

theorem InStep.edit (h : x.InStep) (e : Edit α) : (x.edit e).InStep := by
  obtain ⟨inserts, -⟩ | ⟨asks, -⟩ := x.edit_cases e
  · rw [inserts]
    exact h.insert e.name e.entry
  · rwa [asks]

theorem InStep.after (h : x.InStep) (edits : List (Edit α)) : (x.after edits).InStep := by
  induction edits generalizing x with
  | nil => exact h
  | cons e edits ih => exact ih (h.edit e)

theorem InStep.order_edit (h : x.InStep) (e : Edit α) :
    (x.edit e).order = if e.name ∈ x.order then x.order else x.order ++ [e.name] := by
  obtain ⟨inserts, -⟩ | ⟨asks, -, there⟩ := x.edit_cases e
  · rw [inserts, h.order_insert]
  · rw [asks, if_pos (h.mem_order_iff.mpr there)]

/-- Behind other names, a name counts if it is not one of them. -/
theorem eraseDups_concat (names : List Name) (name : Name) : (names ++ [name]).eraseDups =
    if name ∈ names then names.eraseDups else names.eraseDups ++ [name] := by
  rw [List.eraseDups_append, List.removeAll, List.filter_cons, List.filter_nil]
  by_cases seen : name ∈ names
  · rw [if_pos seen, if_neg (by simpa using seen), List.eraseDups_nil, List.append_nil]
  · rw [if_neg seen, if_pos (by simpa using seen)]
    rfl

/-- The names stand in the order in which they were first edited. -/
theorem order_after (edits : List (Edit α)) :
    (empty.after edits).order = (edits.map Edit.name).eraseDups := by
  induction edits using List.reverseRecOn with
  | nil => rfl
  | append_singleton edits e ih =>
    have inStep : (empty.after edits).InStep := InStep.empty.after edits
    rw [after_append, List.map_append, List.map_singleton, eraseDups_concat]
    refine (inStep.order_edit e).trans ?_
    simp only [ih, List.mem_eraseDups]

/-! ### The entries -/

theorem get?_edit_of_ne (h : e.name.text ≠ folded) : (x.edit e).get? folded = x.get? folded := by
  obtain ⟨inserts, -⟩ | ⟨asks, -⟩ := x.edit_cases e
  · rw [inserts, get?_insert, if_neg (Ne.symm h)]
  · rw [asks]

/-- The entry of an edit is found if it replaces another one or there was none. -/
theorem get?_edit_self (h : e.replaces = true ∨ x.get? e.name.text = none) :
    (x.edit e).get? e.name.text = some e.entry := by
  obtain ⟨inserts, -⟩ | ⟨-, asks, there⟩ := x.edit_cases e
  · rw [inserts, get?_insert, if_pos rfl]
  · obtain replaces | none := h
    · exact absurd (asks.symm.trans replaces) Bool.false_ne_true
    · rw [none] at there
      nomatch there

/-- An entry stays under edits that do not replace it. -/
theorem get?_edit_of_some (h : e.name.text = folded → e.replaces = false)
    (found : x.get? folded = some a) : (x.edit e).get? folded = some a := by
  by_cases same : e.name.text = folded
  · obtain ⟨-, replaces | none⟩ | ⟨asks, -⟩ := x.edit_cases e
    · exact absurd ((h same).symm.trans replaces) Bool.false_ne_true
    · rw [same, found] at none
      nomatch none
    · rw [asks, found]
  · rw [get?_edit_of_ne same, found]

theorem get?_after_of_some (h : ∀ e ∈ edits, e.name.text = folded → e.replaces = false)
    (found : x.get? folded = some a) : (x.after edits).get? folded = some a := by
  induction edits generalizing x with
  | nil => exact found
  | cons e edits ih =>
    obtain ⟨here, further⟩ := List.forall_mem_cons.mp h
    exact ih further (get?_edit_of_some here found)

theorem get?_after_of_ne (h : ∀ e ∈ edits, e.name.text ≠ folded) :
    (x.after edits).get? folded = x.get? folded := by
  induction edits generalizing x with
  | nil => rfl
  | cons e edits ih =>
    obtain ⟨here, further⟩ := List.forall_mem_cons.mp h
    exact (ih further).trans (get?_edit_of_ne here)

/-- A name leads to the entry of its last edit that replaces, or else of its first edit. -/
theorem get?_after {before behind : List (Edit α)}
    (first : e.replaces = true ∨ ∀ e' ∈ before, e'.name ≠ e.name)
    (last : ∀ e' ∈ behind, e'.name = e.name → e'.replaces = false) :
    (empty.after (before ++ e :: behind)).get? e.name.text = some e.entry := by
  have stored : ((empty.after before).edit e).get? e.name.text = some e.entry := by
    refine get?_edit_self (first.imp_right fun new => ?_)
    exact get?_after_of_ne fun e' mem same => new e' mem (Name.ext same)
  rw [after_append, after, List.foldl_cons]
  exact get?_after_of_some (fun e' mem same => last e' mem (Name.ext same)) stored

/-- Going through the names comes to the entry of each, and to no other one. -/
theorem InStep.values_eq (h : x.InStep) :
    x.values.map some = x.names.map fun name => x.get? name.text := by
  have present : ∀ name ∈ x.order, (x.get? name.text).isSome := fun _ => h.mem_order_iff.mp
  rw [values, names]
  generalize x.order = names at present
  induction names with
  | nil => rfl
  | cons name names ih =>
    obtain ⟨here, further⟩ := List.forall_mem_cons.mp present
    obtain ⟨a, found⟩ := Option.isSome_iff_exists.mp here
    rw [List.filterMap_cons, List.map_cons, found, List.map_cons, ih further]

end Indexes

/-! ## Objects -/

namespace Store

variable {s t u : Store} {id other : ObjectId} {name : Name} {cell : CellId}

/-- A new object has no members, like one that was never made. -/
theorem members_newObject (s : Store) (id : ObjectId) : s.newObject.2.members id = s.members id := by
  change (s.objects.push .empty)[id.index]?.getD .empty = _
  rw [Array.getElem?_push, members]
  split
  case isTrue new => rw [new, Array.getElem?_eq_none (Nat.le_refl _), Option.getD_some, Option.getD_none]
  case isFalse => rfl

theorem members_putMember_of_size_le (h : s.objects.size ≤ id.index) (name : Name) (cell : CellId) :
    (s.putMember id name cell).members id = s.members id := by
  change (s.objects.modify id.index fun d => d.insert name cell)[id.index]?.getD .empty = _
  rw [Array.getElem?_modify, if_pos rfl, members, Array.getElem?_eq_none h, Option.map_none]

theorem memberOrNew_of_get? (h : (s.members id).get? name.text = some cell) :
    s.memberOrNew id name = (cell, s) := by
  rw [memberOrNew, h]

theorem memberOrNew_of_get?_eq_none (h : (s.members id).get? name.text = none) :
    s.memberOrNew id name =
      (⟨s.cells.size⟩, (s.newCell .empty false).2.putMember id name ⟨s.cells.size⟩) := by
  rw [memberOrNew, h]
  rfl

/-- To ask an object for a member is to ask its dictionary, with a new cell at hand. -/
theorem members_memberOrNew (h : id.index < s.objects.size) (name : Name) :
    ((s.memberOrNew id name).1, ((s.memberOrNew id name).2.members id).toIndexes) =
      (s.members id).getOrInsert name ⟨s.cells.size⟩ := by
  cases found : (s.members id).get? name.text with
  | some cell => rw [memberOrNew_of_get? found, Indexes.getOrInsert_of_some found]
  | none =>
    rw [memberOrNew_of_get?_eq_none found, Indexes.getOrInsert_of_none found]
    have added := members_putMember_self (s := (s.newCell .empty false).2) h name ⟨s.cells.size⟩
    exact congrArg (fun d : Dictionary CellId => (_, d.toIndexes)) added

theorem members_memberOrNew_of_ne (h : other ≠ id) (name : Name) :
    (s.memberOrNew id name).2.members other = s.members other := by
  cases found : (s.members id).get? name.text with
  | some cell => rw [memberOrNew_of_get? found]
  | none =>
    rw [memberOrNew_of_get?_eq_none found, members_putMember_of_ne h]
    rfl

/-- What is done to the members of the objects of a store are edits.  No members are replaced if the
native functions of the store replace none. -/
structure Edits (s t : Store) : Prop where
  natives : ∀ {p}, s.Does p ↔ t.Does p
  members : ∀ id, ∃ edits : List (Edit CellId),
    (s.Does (·.replaces = false) → ∀ e ∈ edits, e.replaces = false) ∧
      (t.members id).toIndexes = (s.members id).after edits

namespace Edits

theorem refl (s : Store) : s.Edits s := ⟨.rfl, fun _ => ⟨[], fun _ => nofun, rfl⟩⟩

theorem trans (h : s.Edits t) (h' : t.Edits u) : s.Edits u where
  natives := h.natives.trans h'.natives
  members id := by
    obtain ⟨edits, asking, members⟩ := h.members id
    obtain ⟨more, asking', members'⟩ := h'.members id
    refine ⟨edits ++ more, fun spared => ?_, ?_⟩
    · exact List.forall_mem_append.mpr ⟨asking spared, asking' (h.natives.mp spared)⟩
    · rw [members', members, Indexes.after_append]

/-- Whatever happens to cells. -/
theorem still (functions : t.functions = s.functions) (objects : t.objects = s.objects) :
    s.Edits t := by
  obtain ⟨cells, objects, functions⟩ := s
  cases objects
  cases functions
  exact ⟨.rfl, fun _ => ⟨[], fun _ => nofun, rfl⟩⟩

end Edits

theorem edits_newObject (s : Store) : s.Edits s.newObject.2 :=
  ⟨.rfl, fun id => ⟨[], fun _ => nofun, congrArg Dictionary.toIndexes (s.members_newObject id)⟩⟩

theorem edits_newFunction {f : Callable} (h : ∀ {p}, s.Does p → f.Does p) :
    s.Edits (s.newFunction f).2 where
  natives := ⟨(s.extends_newFunction h).natives, (s.extends_newFunction h).does⟩
  members _ := ⟨[], fun _ => nofun, rfl⟩

/-- A cell that is made a member is asked for, unless it replaces another one. -/
theorem edits_putMember (id : ObjectId) (name : Name) (cell : CellId)
    (h : s.Does (·.replaces = false) → (s.members id).get? name.text = none) :
    s.Edits (s.putMember id name cell) := by
  refine ⟨.rfl, fun other => ?_⟩
  by_cases same : other = id
  · subst same
    obtain made | unmade := Nat.lt_or_ge other.index s.objects.size
    · have members := congrArg Dictionary.toIndexes (members_putMember_self made name cell)
      cases found : (s.members other).get? name.text with
      | none =>
        refine ⟨[.getOrInsert name cell], fun _ => by simp [Edit.replaces], members.trans ?_⟩
        exact (congrArg Prod.snd (Indexes.getOrInsert_of_none found cell)).symm
      | some old =>
        refine ⟨[.insert name cell], fun spared => ?_, members⟩
        cases found.symm.trans (h spared)
    · exact ⟨[], fun _ => nofun, congrArg Dictionary.toIndexes
        (members_putMember_of_size_le unmade name cell)⟩
  · exact ⟨[], fun _ => nofun, congrArg Dictionary.toIndexes (members_putMember_of_ne same name cell)⟩

theorem edits_memberOrNew (s : Store) (id : ObjectId) (name : Name) :
    s.Edits (s.memberOrNew id name).2 := by
  cases found : (s.members id).get? name.text with
  | some cell =>
    rw [memberOrNew_of_get? found]
    exact .refl s
  | none =>
    have made : s.Edits (s.newCell .empty false).2 := .still rfl rfl
    rw [memberOrNew_of_get?_eq_none found]
    exact made.trans (edits_putMember id name _ fun _ => found)

end Store

theorem State.Opens.edits {s t : State} {home : FrameId} (h : s.Opens home t) :
    s.store.Edits t.store := by
  obtain same | same := h.store
  · rw [same]
    exact .refl _
  · rw [same]
    exact .still rfl rfl

/-- To do nothing to the members of objects but to edit them. -/
def Discipline.membership : Discipline where
  during _ s m := s.store.Edits m.state.store
  behind _ s t := s.store.Edits t.store
  callable _ _ _ := True
  natives s deed := ∀ p, s.store.Does p → p deed
  start := .refl _
  refl := .refl _
  trans := .trans
  later := .trans
  visit := .refl _
  newCell := .still rfl rfl
  newObject {_ s} := s.store.edits_newObject
  memberOrNew {_ s id name} := s.store.edits_memberOrNew id name
  put _ := .still rfl rfl
  addMember unbound := Store.edits_putMember _ _ _ fun _ => unbound
  putMember allowed _ _ := Store.edits_putMember _ _ _ fun spared =>
    absurd (allowed _ spared) Bool.noConfusion
  newNative does := Store.edits_newFunction fun natives =>
    Service.Does.mono (fun _ allowed => allowed _ natives) does
  tick {_ s} := .refl s.store
  respond {_ s _} := .refl s.store
  addLine {_ s _} := .refl s.store
  define _ _ := .still rfl rfl
  newFunction _ := Store.edits_newFunction fun _ => trivial
  setExplicit {_ s _} := .refl s.store
  inside_during h := h
  inside_behind h := h
  callable_stored _ := trivial
  callable_behind _ _ := trivial
  natives_stored := State.does_all
  natives_behind h allowed _ does := allowed _ (h.natives.mpr does)
  calling {_ s _ _ _} _ _ := .refl s.store
  opening _ _ h _ := h.edits
  body_during _ _ h _ h' := h.edits.trans h'
  closing _ _ h _ h' := h.edits.trans h'
  body_behind _ _ h _ h' := h.edits.trans h'

/-- What the indexes of a dictionary have to do with the edits that were made, the earliest first. -/
structure Indexes.Records (x : Indexes α) (edits : List (Edit α)) : Prop where
  inStep : x.InStep
  size : x.size = x.names.length
  values : x.values.map some = x.names.map fun name => x.get? name.text
  /-- The names stand in the order in which they were first edited. -/
  order : x.names = (edits.map Edit.name).eraseDups
  /-- The last edit that put an entry under a name is the one whose entry is there. -/
  entry : ∀ before e behind, edits = before ++ e :: behind →
    (e.replaces = true ∨ ∀ e' ∈ before, e'.name ≠ e.name) →
      (∀ e' ∈ behind, e'.name = e.name → e'.replaces = false) → x.get? e.name.text = some e.entry
  absent : ∀ folded, (∀ e ∈ edits, e.name.text ≠ folded) → x.get? folded = none
  asking : ∀ name entry fresh, x.get? name.text = some entry → x.getOrInsert name fresh = (entry, x)

theorem Indexes.records_after (edits : List (Edit α)) : (empty.after edits).Records edits where
  inStep := InStep.empty.after edits
  size := rfl
  values := (InStep.empty.after edits).values_eq
  order := order_after edits
  entry := by
    rintro before e behind rfl first last
    exact get?_after first last
  absent folded h := get?_after_of_ne h
  asking name entry fresh found := getOrInsert_of_some found fresh

/-- An object that has come from some edits has come from them and further ones. -/
theorem Store.Edits.records {s t : Store} (h : s.Edits t) {id : ObjectId} {edits : List (Edit CellId)}
    (made : (s.members id).toIndexes = Indexes.empty.after edits) :
    ∃ further, (s.Does (·.replaces = false) → ∀ e ∈ further, e.replaces = false) ∧
      (t.members id).toIndexes = Indexes.empty.after (edits ++ further) ∧
        (t.members id).Records (edits ++ further) := by
  obtain ⟨further, asking, members⟩ := h.members id
  rw [made, ← Indexes.after_append] at members
  exact ⟨further, asking, members, members ▸ Indexes.records_after _⟩

/-- **The indexes of a dictionary stay in step**, whatever is put into it and asked for.  The order
holds the names of the map, each once and from its first edit on, so names, entries and their number
agree; a name leads to the entry that was put there last; and asking for an entry that is there gives
it and changes nothing.  On an object of a store both edits are made as they are on its dictionary, and
other objects stay as they are.  While a script runs, all that is done to an object that has come from
some edits is to edit it further; and if the native functions replace no members, to ask it for
members. -/
theorem indexes_inStep :
    (∀ (α : Type) (edits : List (Edit α)), (Indexes.empty.after edits).Records edits) ∧
      (∀ (s : Store) (id : ObjectId) (name : Name), id.index < s.objects.size →
        (∀ cell, ((s.putMember id name cell).members id).toIndexes =
            (s.members id).edit (.insert name cell) ∧
          ∀ other ≠ id, (s.putMember id name cell).members other = s.members other) ∧
        ((s.memberOrNew id name).1, ((s.memberOrNew id name).2.members id).toIndexes) =
          (s.members id).getOrInsert name ⟨s.cells.size⟩ ∧
        (∀ other ≠ id, (s.memberOrNew id name).2.members other = s.members other) ∧
        ∀ cell, (s.members id).get? name.text = some cell → s.memberOrNew id name = (cell, s)) ∧
      ∀ (bound : Nat) (c : FrameId) (body : List Stmt) (s : State) (id : ObjectId)
        (edits : List (Edit CellId)), (s.store.members id).toIndexes = Indexes.empty.after edits →
          ∀ m, ((Evaluator.ofBound bound).runBody c body).visits s m →
            ∃ further,
              (s.store.Does (·.replaces = false) → ∀ e ∈ further, e.replaces = false) ∧
              (m.state.store.members id).toIndexes = Indexes.empty.after (edits ++ further) ∧
                (m.state.store.members id).Records (edits ++ further) := by
  refine ⟨fun _ => Indexes.records_after, fun s id name made => ⟨fun cell => ?_, ?_, ?_, ?_⟩, ?_⟩
  · exact ⟨congrArg Dictionary.toIndexes (Store.members_putMember_self made name cell),
      fun other apart => Store.members_putMember_of_ne apart name cell⟩
  · exact Store.members_memberOrNew made name
  · exact fun other apart => Store.members_memberOrNew_of_ne apart name
  · exact fun cell => Store.memberOrNew_of_get?
  · intro bound c body s id edits made m visits
    have keeps : Discipline.membership.KeepsFrom c s ((Evaluator.ofBound bound).runBody c body) :=
      Evaluator.keeps_runBody (Evaluator.keeps_ofBound Discipline.membership bound) body s
    have edits : s.store.Edits m.state.store := keeps.during m visits
    exact edits.records made

/-- A member that is put in twice keeps its place, and one that a script assigns to comes last. -/
theorem indexes_inStep_assigned :
    let o := Name.ofString "o"
    let a := Name.ofString "a"
    let b := Name.ofString "b"
    let c := Name.ofString "c"
    let edits : List (Edit CellId) := [.insert b ⟨0⟩, .getOrInsert a ⟨1⟩, .insert b ⟨2⟩]
    let object :=
      ((Store.empty.newObject.2.putMember ⟨0⟩ b ⟨0⟩).putMember ⟨0⟩ a ⟨1⟩).putMember ⟨0⟩ b ⟨2⟩
    let s := ((State.start ⟨object, .empty, [], default, fun _ => 0⟩ 8).pushRoot.2.define ⟨0⟩ .unique o
      (.object ⟨0⟩)).2
    let body : List Stmt :=
      [.assign default (.member default (.var default o) c) (.literal default (.boolean true))]
    (s.store.members ⟨0⟩).toIndexes = Indexes.empty.after edits ∧
      ∃ t asked, (Evaluator.ofBound 4).runBody ⟨0⟩ body s = .done () t ∧
        (t.store.members ⟨0⟩).Records (edits ++ asked) ∧ (t.store.members ⟨0⟩).names = [b, a, c] := by
  intro o a b c edits object s body
  have made : (s.store.members ⟨0⟩).toIndexes = Indexes.empty.after edits := rfl
  have ends : ∃ t, (Evaluator.ofBound 4).runBody ⟨0⟩ body s = .done () t ∧
      (t.store.members ⟨0⟩).names = [b, a, c] := ⟨_, rfl, by decide⟩
  obtain ⟨t, run, names⟩ := ends
  obtain ⟨asked, -, -, records⟩ := indexes_inStep.2.2 4 ⟨0⟩ body s ⟨0⟩ edits made t.moment
    (Run.visits_stop _ (run ▸ rfl))
  exact ⟨made, t, asked, run, records, names⟩

end PageScript
