import PageScript.Proofs.Machine.Meets
import PageScript.Site.Page

/-!
# Proofs/Site/Prelude — the state in which a page starts

Before the first statement of a page runs, the host has its frame: it binds the names of the host, in
their order, to new cells that are read-only, and it is closed (`Host.install_run`).  The page has a
frame of its own that sees it.  Nothing of this can fail, because a host has no name twice, so a page
is its statements run in one certain state (`pageRun_run`).
-/

namespace PageScript

namespace Host

/-- Names with the cells that they get, counted from the next one. -/
def placed (next : Nat) : List (Name × Value) → List (Name × CellId)
  | [] => []
  | (name, _) :: rest => (name, ⟨next⟩) :: placed (next + 1) rest

theorem placed_names : ∀ (next : Nat) (entries : List (Name × Value)),
    (placed next entries).map Prod.fst = entries.map Prod.fst
  | _, [] => rfl
  | next, (name, _) :: rest => congrArg (name :: ·) (placed_names (next + 1) rest)

/-- The names of a host, bound to the cells from a certain one on. -/
def bindings (h : Host) (next : Nat) : Dictionary CellId :=
  .ofEntries (placed next h.entries) ((placed_names next h.entries).symm ▸ h.distinct)

theorem bindings_names (h : Host) (next : Nat) : (h.bindings next).names = h.names := by
  rw [← Dictionary.entries_map_fst, bindings, Dictionary.entries_ofEntries, placed_names,
    Dictionary.entries_map_fst]

/-- The frame of a host, closed. -/
def frame (h : Host) (next : Nat) : Frame := ⟨h.bindings next, none, false, true, none⟩

/-- The cells of host values. -/
def cells (entries : List (Name × Value)) : List Cell := entries.map fun (_, value) => ⟨value, true⟩

/-- A store with the cells of a host. -/
def seeded (h : Host) (s : Store) : Store := { s with cells := s.cells ++ (cells h.entries).toArray }

/-- A world whose store has the cells of a host. -/
def seededWorld (h : Host) (world : World) : World := { world with store := h.seeded world.store }

/-- The state in which a page starts. -/
def opened (h : Host) (explicit : Bool) (world : World) (limit : Nat) : State where
  world := h.seededWorld world
  frames := ⟨#[h.frame world.store.cells.size, .fresh (some ⟨0⟩) explicit]⟩
  objects := []
  depth := 0
  limit := limit

/-! ## Installing a host -/

/-- The state while a host is being installed: some of its names are bound. -/
def installing (world : World) (d : Dictionary CellId) (limit : Nat) : State :=
  ⟨world, ⟨#[⟨d, none, false, false, none⟩]⟩, [], 0, limit⟩

variable {world : World} {d : Dictionary CellId} {limit : Nat}

/-- A world with one more read-only cell. -/
def withCell (world : World) (value : Value) : World :=
  { world with store := { world.store with cells := world.store.cells.push ⟨value, true⟩ } }

theorem declare_installing {name : Name} (value : Value) (hfree : name ∉ d.names) :
    Run.declare ⟨0⟩ .readonly name value (installing world d limit) =
      .done ⟨world.store.cells.size⟩
        (installing (withCell world value) (d.insert name ⟨world.store.cells.size⟩) limit) := by
  have unbound : d.get? name.text = none := d.inStep.get?_eq_none_iff.mpr hfree
  have frame : (installing world d limit).frames.get ⟨0⟩ = ⟨d, none, false, false, none⟩ := rfl
  have allowed : (installing world d limit).declarationFault? ⟨0⟩ .readonly name = none := by
    simp [State.declarationFault?, frame, unbound]
  simp only [Run.declare, Run.visiting, Run.about, Run.atomic, Run.through, allowed]
  rfl

theorem declareAll_installing (limit : Nat) : ∀ {entries : List (Name × Value)} (world : World)
    {d : Dictionary CellId}, (entries.map Prod.fst).Nodup →
      (∀ name ∈ entries.map Prod.fst, name ∉ d.names) →
        ∃ d', declareAll ⟨0⟩ entries (installing world d limit) =
            .done () (installing { world with store := { world.store with
              cells := world.store.cells ++ (cells entries).toArray } } d' limit) ∧
          d'.entries = d.entries ++ placed world.store.cells.size entries
  | [], world, d, _, _ => ⟨d, by rw [cells, List.map_nil, Array.append_empty]; rfl,
      (List.append_nil _).symm⟩
  | (name, value) :: rest, world, d, hnodup, hfree => by
    obtain ⟨hname, hrest⟩ := List.nodup_cons.mp hnodup
    have free := hfree name List.mem_cons_self
    have bound : (d.insert name ⟨world.store.cells.size⟩).entries =
        d.entries ++ [(name, ⟨world.store.cells.size⟩)] := by
      rw [Dictionary.entries_insert, Dictionary.putIn_of_notMem (d.entries_map_fst ▸ free)]
    obtain ⟨d', hrun, hd'⟩ := declareAll_installing limit (withCell world value)
      (d := d.insert name ⟨world.store.cells.size⟩) hrest fun key hkey hmem => by
        rw [← Dictionary.entries_map_fst, bound, List.map_append, List.mem_append,
          Dictionary.entries_map_fst] at hmem
        obtain hmem | hmem := hmem
        · exact hfree key (List.mem_cons_of_mem name hkey) hmem
        · exact hname (List.mem_singleton.mp hmem ▸ hkey)
    refine ⟨d', (Run.bind_of_done (declare_installing value free)).trans (hrun.trans ?_), ?_⟩
    · simp [withCell, cells]
    · rw [hd', bound, List.append_assoc]
      simp [withCell, placed]

/-- **Installing a host never fails**, and leaves its frame with the names of the host. -/
theorem install_run (h : Host) (world : World) (limit : Nat) :
    h.install (.start world limit) =
      .done ⟨0⟩ ⟨h.seededWorld world, ⟨#[h.frame world.store.cells.size]⟩, [], 0, limit⟩ := by
  obtain ⟨d, hrun, hd⟩ := declareAll_installing limit world (d := .empty) h.distinct nofun
  obtain rfl : d = h.bindings world.store.cells.size :=
    Dictionary.ext_entries (hd.trans (Dictionary.entries_ofEntries _).symm)
  refine (Run.bind_of_done (a := ⟨0⟩) (t := installing world .empty limit) rfl).trans ?_
  refine (Run.bind_of_done hrun).trans ?_
  rfl

end Host

/-- **A page is its statements**, run in the state in which it starts. -/
theorem pageRun_run (ev : Evaluator) (h : Host) (explicit : Bool) (body : List Stmt) (world : World)
    (limit : Nat) :
    pageRun ev h explicit body (.start world limit) =
      ev.runBody ⟨1⟩ body (h.opened explicit world limit) := by
  refine (Run.bind_of_done (h.install_run world limit)).trans ?_
  refine (Run.bind_of_done (a := ⟨1⟩) (t := h.opened false world limit) rfl).trans ?_
  cases explicit with
  | false => rfl
  | true => rfl

end PageScript
