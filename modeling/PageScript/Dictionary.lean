import PageScript.Name

/-!
# Dictionary — names with entries, in the order of their first insertion

A dictionary has two indexes: a map from names to entries, and a list of the names in the order in
which they were first inserted.  Replacing an entry leaves its name in place.  The two are kept in step
(`Indexes.InStep`): the list holds every name of the map once, and no other, so that going through it
comes to all entries (`Indexes.entries`) and passes over no name (`Dictionary.entries_map_fst`).  Members
of objects, host values and the variables of a frame are held in dictionaries.
-/

namespace PageScript

variable {α : Type}

/-- A map from folded names to entries, and names in an order. -/
structure Indexes (α : Type) where
  slots : String → Option α
  order : List Name

namespace Indexes

/-- The indexes without entries. -/
def empty : Indexes α := ⟨fun _ => none, []⟩

/-- The entry under a folded name. -/
def get? (x : Indexes α) (folded : String) : Option α := x.slots folded

/-- Adds an entry, or replaces the entry of a name that is there.  A name that the map did not have
is put behind the others. -/
def insert (x : Indexes α) (name : Name) (entry : α) : Indexes α where
  slots := fun folded => if folded = name.text then some entry else x.slots folded
  order := if (x.slots name.text).isNone then x.order ++ [name] else x.order

/-- The names, in the order of their first insertion. -/
def names (x : Indexes α) : List Name := x.order

/-- The entries, in the order of the names.  A name that the map does not have is passed over. -/
def values (x : Indexes α) : List α := x.order.filterMap fun name => x.get? name.text

/-- The names with their entries, in order. -/
def entries (x : Indexes α) : List (Name × α) :=
  x.order.filterMap fun name => (x.get? name.text).map (name, ·)

/-- The number of names. -/
def size (x : Indexes α) : Nat := x.order.length

/-- Whether there is no name. -/
def isEmpty (x : Indexes α) : Bool := x.size == 0

/-- No name stands in the order twice, and the names there are the ones that the map has. -/
structure InStep (x : Indexes α) : Prop where
  distinct : x.order.Nodup
  keys : ∀ folded, (x.get? folded).isSome ↔ ∃ name ∈ x.order, name.text = folded

/-! ## Insertion -/

variable {x : Indexes α} {name : Name} {entry : α}

theorem get?_insert (x : Indexes α) (name : Name) (entry : α) (folded : String) :
    (x.insert name entry).get? folded = if folded = name.text then some entry else x.get? folded := rfl

namespace InStep

theorem empty : (empty : Indexes α).InStep := ⟨List.nodup_nil, fun _ => ⟨nofun, nofun⟩⟩

theorem mem_order_iff (h : x.InStep) : name ∈ x.order ↔ (x.get? name.text).isSome := by
  rw [h.keys]
  refine ⟨fun mem => ⟨name, mem, rfl⟩, ?_⟩
  rintro ⟨key, mem, same⟩
  exact Name.ext same ▸ mem

theorem get?_eq_none_iff (h : x.InStep) : x.get? name.text = none ↔ name ∉ x.order := by
  rw [h.mem_order_iff, Option.not_isSome_iff_eq_none]

/-- The name that is inserted is the only one that may be new, and only then it gets a place. -/
theorem order_insert (h : x.InStep) (name : Name) (entry : α) :
    (x.insert name entry).order = if name ∈ x.order then x.order else x.order ++ [name] := by
  rw [Indexes.insert]
  by_cases mem : name ∈ x.order
  · obtain ⟨old, found⟩ := Option.isSome_iff_exists.mp (h.mem_order_iff.mp mem)
    have found : x.slots name.text = some old := found
    rw [if_pos mem, found, Option.isNone_some, if_neg Bool.false_ne_true]
  · have none : x.slots name.text = none := h.get?_eq_none_iff.mpr mem
    rw [if_neg mem, none, Option.isNone_none, if_pos rfl]

theorem mem_order_insert (h : x.InStep) {key : Name} :
    key ∈ (x.insert name entry).order ↔ key = name ∨ key ∈ x.order := by
  rw [h.order_insert]
  split
  case isTrue mem => exact ⟨.inr, fun h => h.elim (fun same => same ▸ mem) id⟩
  case isFalse => rw [List.mem_append, List.mem_singleton, or_comm]

theorem insert (h : x.InStep) (name : Name) (entry : α) : (x.insert name entry).InStep where
  distinct := by
    rw [h.order_insert]
    split
    case isTrue => exact h.distinct
    case isFalse new =>
      exact List.nodup_append.mpr ⟨h.distinct, List.nodup_cons.mpr ⟨List.not_mem_nil, .nil⟩,
        fun key mem other same equal => new (List.mem_singleton.mp same ▸ equal ▸ mem)⟩
  keys folded := by
    simp only [h.mem_order_insert, get?_insert, or_and_right, exists_or, exists_eq_left]
    by_cases same : folded = name.text
    · simp [same]
    · rw [if_neg same, h.keys]
      exact ⟨.inr, fun h => h.resolve_left (Ne.symm same)⟩

end InStep

end Indexes

/-- Names with entries, in the order of their first insertion. -/
structure Dictionary (α : Type) extends Indexes α where
  inStep : toIndexes.InStep

namespace Dictionary

/-- The dictionary without entries. -/
def empty : Dictionary α := ⟨.empty, .empty⟩

instance : Inhabited (Dictionary α) := ⟨empty⟩

/-- Adds an entry, or replaces the entry of a name that is there. -/
def insert (d : Dictionary α) (name : Name) (entry : α) : Dictionary α :=
  ⟨d.toIndexes.insert name entry, d.inStep.insert name entry⟩

variable {d e : Dictionary α} {name : Name} {entry a : α} {folded : String}

/-- **A name that was just inserted leads to its entry.** -/
@[simp] theorem get?_insert_self (d : Dictionary α) (name : Name) (entry : α) :
    (d.insert name entry).get? name.text = some entry :=
  (d.get?_insert name entry name.text).trans (if_pos rfl)

/-- **Other names lead where they led before.** -/
theorem get?_insert_of_ne (d : Dictionary α) {name : Name} {folded : String}
    (hne : name.text ≠ folded) (entry : α) : (d.insert name entry).get? folded = d.get? folded :=
  (d.get?_insert name entry folded).trans (if_neg (Ne.symm hne))

/-! ## Entries -/

theorem mem_entries : (name, a) ∈ d.entries ↔ d.get? name.text = some a := by
  rw [Indexes.entries, List.mem_filterMap]
  constructor
  · rintro ⟨key, -, found⟩
    obtain ⟨b, found, same⟩ := Option.map_eq_some_iff.mp found
    cases same
    exact found
  · intro found
    have mem : name ∈ d.order := d.inStep.mem_order_iff.mpr (found ▸ rfl)
    exact ⟨name, mem, by rw [found, Option.map_some]⟩

theorem entries_map_snd (d : Dictionary α) : d.entries.map Prod.snd = d.values := by
  rw [Indexes.entries, Indexes.values, List.map_filterMap]
  simp only [Option.map_map, Function.comp_def, Option.map_id']

theorem snd_mem_values {entry : Name × α} (h : entry ∈ d.entries) : entry.2 ∈ d.values :=
  d.entries_map_snd ▸ List.mem_map_of_mem h

/-- No name is passed over. -/
theorem entries_map_fst (d : Dictionary α) : d.entries.map Prod.fst = d.names := by
  have present : ∀ name ∈ d.order, (d.get? name.text).isSome := fun _ => d.inStep.mem_order_iff.mp
  rw [Indexes.entries, Indexes.names]
  generalize d.order = names at present
  induction names with
  | nil => rfl
  | cons name names ih =>
    obtain ⟨here, further⟩ := List.forall_mem_cons.mp present
    obtain ⟨a, found⟩ := Option.isSome_iff_exists.mp here
    rw [List.filterMap_cons, found, Option.map_some, List.map_cons, ih further]

theorem distinct (d : Dictionary α) : (d.entries.map Prod.fst).Nodup :=
  d.entries_map_fst ▸ d.inStep.distinct

/-- What is found under a name stands among the entries. -/
theorem get?_eq_find? (d : Dictionary α) (folded : String) :
    d.get? folded = (d.entries.find? fun (key, _) => key.text == folded).map Prod.snd := by
  cases found : d.entries.find? fun (key, _) => key.text == folded with
  | some entry =>
    obtain ⟨key, a⟩ := entry
    have same : key.text = folded := beq_iff_eq.mp (List.find?_some (a := (key, a)) found)
    exact same ▸ mem_entries.mp (List.mem_of_find?_eq_some found)
  | none =>
    rw [Option.map_none, ← Option.not_isSome_iff_eq_none, d.inStep.keys]
    rintro ⟨key, mem, same⟩
    obtain ⟨a, there⟩ := Option.isSome_iff_exists.mp (d.inStep.mem_order_iff.mp mem)
    exact absurd (beq_iff_eq.mpr same) (List.find?_eq_none.mp found _ (mem_entries.mpr there))

/-- Dictionaries with the same entries in the same order are the same. -/
theorem ext_entries (h : d.entries = e.entries) : d = e := by
  have order : d.order = e.order := by
    rw [← Indexes.names, ← Indexes.names, ← entries_map_fst, h, entries_map_fst]
  have slots : d.slots = e.slots := funext fun folded => by
    rw [← Indexes.get?, ← Indexes.get?, get?_eq_find?, get?_eq_find?, h]
  obtain ⟨⟨_, _⟩, _⟩ := d
  obtain ⟨⟨_, _⟩, _⟩ := e
  cases order
  cases slots
  rfl

/-- The entries with one of them replaced, or added at the end. -/
def putIn (name : Name) (entry : α) : List (Name × α) → List (Name × α)
  | [] => [(name, entry)]
  | (key, old) :: rest =>
    if key = name then (key, entry) :: rest else (key, old) :: putIn name entry rest

/-- An entry of a name that is not there is put at the end. -/
theorem putIn_of_notMem : ∀ {entries : List (Name × α)},
    name ∉ entries.map Prod.fst → putIn name entry entries = entries ++ [(name, entry)]
  | [], _ => rfl
  | (key, old) :: rest, h => by
    rw [List.map_cons, List.mem_cons, not_or] at h
    rw [putIn, if_neg fun same => h.1 same.symm, putIn_of_notMem h.2, List.cons_append]

/-- Other names find what they found before. -/
theorem filterMap_insert_of_notMem {x : Indexes α} : ∀ {names : List Name}, name ∉ names →
    names.filterMap (fun key => ((x.insert name entry).get? key.text).map (key, ·)) =
      names.filterMap fun key => (x.get? key.text).map (key, ·)
  | [], _ => rfl
  | key :: names, new => by
    rw [List.mem_cons, not_or] at new
    have apart : key.text ≠ name.text := fun same => new.1 (Name.ext same.symm)
    rw [List.filterMap_cons, List.filterMap_cons, Indexes.get?_insert, if_neg apart,
      filterMap_insert_of_notMem new.2]

/-- Among names that are there, the one whose entry is replaced keeps its place. -/
theorem filterMap_insert_of_mem {x : Indexes α} : ∀ {names : List Name}, names.Nodup →
    (∀ key ∈ names, (x.get? key.text).isSome) → name ∈ names →
      names.filterMap (fun key => ((x.insert name entry).get? key.text).map (key, ·)) =
        putIn name entry (names.filterMap fun key => (x.get? key.text).map (key, ·))
  | key :: names, distinct, present, mem => by
    obtain ⟨new, distinct⟩ := List.nodup_cons.mp distinct
    obtain ⟨here, further⟩ := List.forall_mem_cons.mp present
    obtain ⟨old, found⟩ := Option.isSome_iff_exists.mp here
    rw [List.filterMap_cons, List.filterMap_cons, Indexes.get?_insert, found, Option.map_some, putIn]
    by_cases same : key = name
    · subst same
      rw [if_pos rfl, if_pos rfl, Option.map_some, filterMap_insert_of_notMem new]
    · have mem : name ∈ names := (List.mem_cons.mp mem).resolve_left (Ne.symm same)
      rw [if_neg same, if_neg fun equal => same (Name.ext equal), Option.map_some,
        filterMap_insert_of_mem distinct further mem]

theorem entries_insert (d : Dictionary α) (name : Name) (entry : α) :
    (d.insert name entry).entries = putIn name entry d.entries := by
  have order : (d.insert name entry).order = if name ∈ d.order then d.order else d.order ++ [name] :=
    d.inStep.order_insert name entry
  rw [Indexes.entries, order]
  split
  case isTrue mem =>
    exact filterMap_insert_of_mem d.inStep.distinct (fun _ => d.inStep.mem_order_iff.mp) mem
  case isFalse new =>
    have notMem : name ∉ d.entries.map Prod.fst := d.entries_map_fst ▸ new
    have here : (d.insert name entry).get? name.text = some entry := get?_insert_self d name entry
    rw [List.filterMap_append, putIn_of_notMem notMem, List.filterMap_cons, here]
    exact congrArg (· ++ [(name, entry)]) (filterMap_insert_of_notMem new)

/-! ## Dictionaries of entries -/

theorem find?_of_mem : ∀ {entries : List (Name × α)}, (entries.map Prod.fst).Nodup →
    (name, a) ∈ entries → entries.find? (fun (key, _) => key.text == name.text) = some (name, a)
  | (key, other) :: rest, distinct, h => by
    obtain ⟨new, distinct⟩ := List.nodup_cons.mp distinct
    obtain h | h := List.mem_cons.mp h
    · cases h
      exact List.find?_cons_of_pos (beq_self_eq_true _)
    · have seen : name ∈ rest.map Prod.fst := List.mem_map_of_mem h
      have apart : key.text ≠ name.text := fun same => new (Name.ext same ▸ seen)
      rw [List.find?_cons_of_neg (by simpa using apart)]
      exact find?_of_mem distinct h

/-- The dictionary that has certain entries. -/
def ofEntries (entries : List (Name × α)) (distinct : (entries.map Prod.fst).Nodup) : Dictionary α where
  slots := fun folded => (entries.find? fun (key, _) => key.text == folded).map Prod.snd
  order := entries.map Prod.fst
  inStep := ⟨distinct, fun folded => by simp [Indexes.get?, List.find?_isSome]⟩

theorem entries_ofEntries {entries : List (Name × α)} (distinct : (entries.map Prod.fst).Nodup) :
    (ofEntries entries distinct).entries = entries := by
  have all : ∀ entry ∈ entries, ((ofEntries entries distinct).get? entry.1.text).map (entry.1, ·) =
      some entry := by
    rintro ⟨name, a⟩ mem
    exact congrArg (Option.map (name, ·) ∘ Option.map Prod.snd) (find?_of_mem distinct mem)
  change List.filterMap _ (entries.map Prod.fst) = entries
  rw [List.filterMap_map]
  generalize ofEntries entries distinct = d at all
  clear distinct
  induction entries with
  | nil => rfl
  | cons entry entries ih =>
    obtain ⟨here, further⟩ := List.forall_mem_cons.mp all
    rw [List.filterMap_cons, Function.comp_apply, here, ih further]

end Dictionary

end PageScript
