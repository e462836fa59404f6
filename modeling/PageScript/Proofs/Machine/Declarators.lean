import Mathlib.Data.List.Nodup
import PageScript.Proofs.Machine.Agreement
import PageScript.Proofs.Machine.Balance
import PageScript.Proofs.Machine.Closures

/-!
# Proofs/Machine/Declarators — what declaring names makes of a state

`Stmt.declarators` lists what a statement declares before anything runs.  Declaring it one by one
succeeds exactly if no name is declared twice, none is bound already, and the frame takes declarations
(`Declarator.declareAll_eq_done_iff`): none of this depends on the order.  What comes of a state is
described name by name (`State.Declares`): each name is bound to a cell of its own, which holds what
it was declared as.
-/

namespace PageScript

/-- What a name is declared as before anything runs. -/
inductive Declarator where
  | «variable» (name : Name)
  | constant (name : Name) (value : Literal)
  | procedure (decl : Procedure)

namespace Declarator

/-- The name that is declared. -/
def name : Declarator → Name
  | «variable» name | constant name _ => name
  | procedure decl => decl.name

/-- Declares a name in a frame. -/
def declare (c : FrameId) : Declarator → Run Unit
  | «variable» name => do
    let _ ← Run.declare c .unique name .empty
  | constant name value => do
    let _ ← Run.declare c .readonly name (.ofLiteral value)
  | procedure decl => decl.declare c

/-- Declares names in a frame, in order. -/
def declareAll (c : FrameId) : List Declarator → Run Unit
  | [] => pure ()
  | d :: rest => do
    d.declare c
    declareAll c rest

/-- The state in which a name has been declared. -/
def addTo (c : FrameId) (s : State) : Declarator → State
  | «variable» name => (s.define c .unique name .empty).2
  | constant name value => (s.define c .readonly name (.ofLiteral value)).2
  | procedure decl =>
    ((s.newFunction (.script decl c)).2.define c .unique decl.name
      (.function (s.newFunction (.script decl c)).1)).2

end Declarator

mutual

/-- What a statement declares before it runs, in order. -/
def Stmt.declarators : Stmt → List Declarator
  | .dim _ name _ _ => [.variable name]
  | .const _ name value => [.constant name value]
  | .procedure _ decl => [.procedure decl]
  | .block _ body | .loop _ _ body _ _ | .count _ _ _ _ _ body | .forEach _ _ _ body
  | .withObject _ _ body | .property _ _ (.mk _ _ _ body _) _ | .includeFile _ _ (some body) =>
    Stmt.declaratorsIn body
  | .branch _ _ thenBody elseBody => Stmt.declaratorsIn thenBody ++ Stmt.declaratorsIn elseBody
  | .select _ _ cases => Stmt.declaratorsInCases cases
  | .assign .. | .call .. | .redim .. | .classDecl .. | .exit .. | .onError .. | .optionExplicit ..
  | .includeFile _ _ none => []

/-- What statements declare before they run, in order. -/
def Stmt.declaratorsIn : List Stmt → List Declarator
  | [] => []
  | stmt :: rest => stmt.declarators ++ Stmt.declaratorsIn rest

/-- What the cases of a `select` statement declare. -/
def Stmt.declaratorsInCases : List Case → List Declarator
  | [] => []
  | .mk _ body :: rest => Stmt.declaratorsIn body ++ Stmt.declaratorsInCases rest

end

variable {c : FrameId} {s t : State}

/-! ## One after another -/

namespace Run

theorem bind_unit (m : Run Unit) (s : State) : (m >>= fun _ => pure ()) s = m s := by
  simp only [Bind.bind, Run.bind, through]
  cases m s <;> rfl

/-- A run behind another one succeeds if both do. -/
theorem bind_eq_done_iff {m : Run Unit} {next : Unit → Run Unit} :
    (m >>= next) s = .done () t ↔ ∃ u, m s = .done () u ∧ next () u = .done () t := by
  simp only [Bind.bind, Run.bind, through]
  cases m s <;> simp

end Run

theorem Outcome.Agrees.done_iff {o o' : Outcome Unit} (h : o.Agrees o') :
    o = .done () t ↔ o' = .done () t := by
  cases h with
  | done => exact Iff.rfl
  | failed => exact ⟨nofun, nofun⟩
  | exhausted => exact Iff.rfl

open Run

theorem Declarator.declareAll_append : ∀ (ds ds' : List Declarator) (s : State),
    declareAll c (ds ++ ds') s = (declareAll c ds >>= fun _ => declareAll c ds') s
  | [], _, _ => rfl
  | d :: ds, ds', s => by
    have rest := bind_congr (d.declare c) (fun _ t => declareAll_append ds ds' t) s
    exact rest.trans (bind_assoc _ _ _ s).symm

theorem Declarator.declareAll_singleton (d : Declarator) (s : State) :
    declareAll c [d] s = d.declare c s :=
  bind_unit _ s

mutual

theorem Stmt.agrees_declare : ∀ (stmt : Stmt) (s : State),
    (stmt.declare c s).Agrees (Declarator.declareAll c stmt.declarators s)
  | .dim _ name _ _, s => .of_eq (Declarator.declareAll_singleton (.variable name) s).symm
  | .const _ name value, s => .of_eq (Declarator.declareAll_singleton (.constant name value) s).symm
  | .procedure _ decl, s => .of_eq (Declarator.declareAll_singleton (.procedure decl) s).symm
  | .block _ body, s | .loop _ _ body _ _, s | .count _ _ _ _ _ body, s | .forEach _ _ _ body, s
  | .withObject _ _ body, s | .property _ _ (.mk _ _ _ body _) _, s
  | .includeFile _ _ (some body), s => Stmt.agrees_declareBody body s
  | .branch _ _ thenBody elseBody, s =>
    (agrees_bind (Stmt.agrees_declareBody thenBody s)).trans
      ((agrees_bind_right _ (fun _ => Stmt.agrees_declareBody elseBody) s).trans
        (.of_eq (Declarator.declareAll_append _ _ s).symm))
  | .select _ _ cases, s => Stmt.agrees_declareCases cases s
  | .assign .., _ | .call .., _ | .redim .., _ | .classDecl .., _ | .exit .., _ | .onError .., _
  | .optionExplicit .., _ | .includeFile _ _ none, _ => .refl _

/-- Declaring statements is declaring what they declare, but for the place of a fault. -/
theorem Stmt.agrees_declareBody : ∀ (body : List Stmt) (s : State),
    (Stmt.declareBody c body s).Agrees (Declarator.declareAll c (Stmt.declaratorsIn body) s)
  | [], _ => .refl _
  | stmt :: rest, s =>
    (agrees_bind ((agrees_within stmt.span).trans (stmt.agrees_declare s))).trans
      ((agrees_bind_right _ (fun _ => Stmt.agrees_declareBody rest) s).trans
        (.of_eq (Declarator.declareAll_append _ _ s).symm))

theorem Stmt.agrees_declareCases : ∀ (cases : List Case) (s : State),
    (Stmt.declareCases c cases s).Agrees (Declarator.declareAll c (Stmt.declaratorsInCases cases) s)
  | [], _ => .refl _
  | .mk _ body :: rest, s =>
    (agrees_bind (Stmt.agrees_declareBody body s)).trans
      ((agrees_bind_right _ (fun _ => Stmt.agrees_declareCases rest) s).trans
        (.of_eq (Declarator.declareAll_append _ _ s).symm))

end

/-! ## When declarations succeed -/

/-- A frame takes some declarations: it is not closed for them, it runs no procedure if one is
declared, and the names are new and different. -/
structure State.Admits (s : State) (c : FrameId) (ds : List Declarator) : Prop where
  unfrozen : ∀ d ∈ ds, (s.frames.get c).frozen = false
  idle : ∀ decl, Declarator.procedure decl ∈ ds → (s.frames.get c).procedure = none
  free : ∀ d ∈ ds, (s.frames.get c).bindings.get? d.name.text = none
  distinct : (ds.map Declarator.name).Nodup

/-- **Whether declarations are taken does not depend on their order.** -/
theorem State.Admits.perm {ds ds' : List Declarator} (h : s.Admits c ds) (perm : ds.Perm ds') :
    s.Admits c ds' where
  unfrozen d hd := h.unfrozen d (perm.mem_iff.mpr hd)
  idle decl hdecl := h.idle decl (perm.mem_iff.mpr hdecl)
  free d hd := h.free d (perm.mem_iff.mpr hd)
  distinct := (perm.map _).nodup_iff.mp h.distinct

theorem State.declarationFault?_eq_none_iff {how : Declaration} (first : how ≠ .replacing)
    {name : Name} :
    s.declarationFault? c how name = none ↔
      (s.frames.get c).frozen = false ∧ (s.frames.get c).bindings.get? name.text = none := by
  unfold State.declarationFault?
  cases frozen : (s.frames.get c).frozen <;>
    cases bound : (s.frames.get c).bindings.get? name.text <;> simp [first, frozen, bound]

theorem Run.declare_eq_done_iff {how : State.Declaration} (first : how ≠ .replacing) {name : Name}
    {v : Value} :
    (Run.declare c how name v >>= fun _ => pure ()) s = .done () t ↔
      ((s.frames.get c).frozen = false ∧ (s.frames.get c).bindings.get? name.text = none) ∧
        t = (s.define c how name v).2 := by
  rw [← State.declarationFault?_eq_none_iff first]
  cases hfault : s.declarationFault? c how name with
  | none =>
    have made : (Run.declare c how name v >>= fun _ => pure ()) s = .done () (s.define c how name v).2 :=
      bind_of_done (declare_of_free hfault)
    rw [made]
    exact ⟨fun h => by cases h; exact ⟨rfl, rfl⟩, fun h => h.2 ▸ rfl⟩
  | some cause =>
    have refused : (Run.declare c how name v >>= fun _ => pure ()) s = .failed (.of cause) s := by
      refine bind_of_failed ?_
      simp only [declare, visiting, about, through, atomic, hfault]
    rw [refused]
    constructor
    · intro h
      cases h
    · rintro ⟨free, -⟩
      cases free

/-- In a frame that runs no procedure, a procedure is stored and its name declared. -/
theorem Procedure.declare_of_idle {decl : Procedure} (idle : (s.frames.get c).procedure = none) :
    decl.declare c s =
      (Run.declare c .unique decl.name (.function (s.newFunction (.script decl c)).1) >>=
        fun _ => pure ()) (s.newFunction (.script decl c)).2 := by
  refine (bind_of_done (t := s) rfl).trans ?_
  rw [idle]
  rfl

theorem Procedure.declare_of_running {decl : Procedure} {running : Name}
    (h : (s.frames.get c).procedure = some running) :
    decl.declare c s =
      .failed (.of (.unsupported ("declaring " ++ decl.name.text ++ " inside a procedure"))) s := by
  refine (bind_of_done (t := s) rfl).trans ?_
  rw [h]
  rfl

namespace Declarator

variable {d : Declarator} {ds : List Declarator}

theorem frames_addTo (c : FrameId) (s : State) (d : Declarator) :
    (d.addTo c s).frames = s.frames.bind c d.name ⟨s.store.cells.size⟩ := by
  cases d <;> rfl

theorem get_addTo_self (live : c.index < s.frames.size) (d : Declarator) :
    (d.addTo c s).frames.get c = (s.frames.get c).bind d.name ⟨s.store.cells.size⟩ :=
  (congrArg (·.get c) (frames_addTo c s d)).trans (Frames.get_modify_self live)

theorem size_addTo (d : Declarator) : (d.addTo c s).frames.size = s.frames.size :=
  (congrArg Frames.size (frames_addTo c s d)).trans Frames.size_modify

theorem admits_singleton_iff : s.Admits c [d] ↔
    ((s.frames.get c).frozen = false ∧ (s.frames.get c).bindings.get? d.name.text = none) ∧
      ∀ decl, d = .procedure decl → (s.frames.get c).procedure = none := by
  constructor
  · intro h
    exact ⟨⟨h.unfrozen d (.head _), h.free d (.head _)⟩,
      fun decl same => h.idle decl (same ▸ .head _)⟩
  · rintro ⟨⟨unfrozen, free⟩, idle⟩
    exact ⟨List.forall_mem_singleton.mpr unfrozen, fun decl h => idle decl (List.mem_singleton.mp h).symm,
      List.forall_mem_singleton.mpr free, List.nodup_singleton _⟩

/-- A declaration succeeds exactly if the frame takes it. -/
theorem declare_eq_done_iff : d.declare c s = .done () t ↔ s.Admits c [d] ∧ t = d.addTo c s := by
  rw [admits_singleton_iff]
  cases d with
  | «variable» name =>
    have idle : ∀ decl, Declarator.variable name = .procedure decl → (s.frames.get c).procedure = none :=
      nofun
    exact (Run.declare_eq_done_iff (by decide)).trans (and_congr_left' (and_iff_left idle).symm)
  | constant name value =>
    have idle : ∀ decl, Declarator.constant name value = .procedure decl →
        (s.frames.get c).procedure = none := nofun
    exact (Run.declare_eq_done_iff (by decide)).trans (and_congr_left' (and_iff_left idle).symm)
  | procedure decl =>
    cases running : (s.frames.get c).procedure with
    | some other =>
      rw [declare, Procedure.declare_of_running running]
      exact ⟨nofun, fun h => nomatch h.1.2 decl rfl⟩
    | none =>
      rw [declare, Procedure.declare_of_idle running]
      exact (Run.declare_eq_done_iff (by decide)).trans (and_congr_left' (and_iff_left fun _ _ => rfl).symm)

theorem admits_cons_iff (live : c.index < s.frames.size) :
    s.Admits c (d :: ds) ↔ s.Admits c [d] ∧ (d.addTo c s).Admits c ds := by
  have after := get_addTo_self live d
  constructor
  · intro h
    obtain ⟨new, distinct⟩ := List.nodup_cons.mp h.distinct
    refine ⟨⟨List.forall_mem_singleton.mpr (h.unfrozen d (.head _)),
      fun decl hdecl => h.idle decl (List.mem_singleton.mp hdecl ▸ .head _),
      List.forall_mem_singleton.mpr (h.free d (.head _)), List.nodup_singleton _⟩, ?_⟩
    refine ⟨fun d' hd' => ?_, fun decl hdecl => ?_, fun d' hd' => ?_, distinct⟩
    · rw [after]
      exact h.unfrozen d' (.tail _ hd')
    · rw [after]
      exact h.idle decl (.tail _ hdecl)
    · have apart : d.name.text ≠ d'.name.text := fun same =>
        new (Name.ext same ▸ List.mem_map_of_mem hd')
      rw [after]
      exact (Dictionary.get?_insert_of_ne _ apart _).trans (h.free d' (.tail _ hd'))
  · rintro ⟨first, rest⟩
    have apart : ∀ d' ∈ ds, d.name.text ≠ d'.name.text := fun d' hd' same => by
      have free := rest.free d' hd'
      rw [after, ← same] at free
      exact nomatch (Dictionary.get?_insert_self _ _ _).symm.trans free
    refine ⟨List.forall_mem_cons.mpr ⟨first.unfrozen d (.head _), fun d' hd' => ?_⟩,
      fun decl hdecl => ?_,
      List.forall_mem_cons.mpr ⟨first.free d (.head _), fun d' hd' => ?_⟩,
      List.nodup_cons.mpr ⟨fun hmem => ?_, rest.distinct⟩⟩
    · exact (congrArg Frame.frozen after).symm.trans (rest.unfrozen d' hd')
    · obtain same | hdecl := List.mem_cons.mp hdecl
      · exact first.idle decl (same ▸ .head _)
      · exact (congrArg Frame.procedure after).symm.trans (rest.idle decl hdecl)
    · have free := rest.free d' hd'
      rw [after] at free
      exact (Dictionary.get?_insert_of_ne _ (apart d' hd') _).symm.trans free
    · obtain ⟨d', hd', same⟩ := List.mem_map.mp hmem
      exact apart d' hd' (congrArg Name.text same.symm)

/-- **Declarations succeed exactly if the frame takes them all.** -/
theorem declareAll_eq_done_iff (live : c.index < s.frames.size) :
    declareAll c ds s = .done () t ↔ s.Admits c ds ∧ t = ds.foldl (fun s d => d.addTo c s) s := by
  induction ds generalizing s with
  | nil =>
    have nothing : s.Admits c [] := ⟨nofun, nofun, nofun, List.nodup_nil⟩
    exact ⟨fun h => by cases h; exact ⟨nothing, rfl⟩, fun h => h.2 ▸ rfl⟩
  | cons d ds ih =>
    rw [declareAll, bind_eq_done_iff, admits_cons_iff live]
    constructor
    · rintro ⟨u, first, rest⟩
      obtain ⟨admits, rfl⟩ := declare_eq_done_iff.mp first
      obtain ⟨admits', rfl⟩ := (ih ((size_addTo d).symm ▸ live)).mp rest
      exact ⟨⟨admits, admits'⟩, rfl⟩
    · rintro ⟨⟨admits, admits'⟩, rfl⟩
      exact ⟨_, declare_eq_done_iff.mpr ⟨admits, rfl⟩,
        (ih ((size_addTo d).symm ▸ live)).mpr ⟨admits', rfl⟩⟩

end Declarator

/-! ## What comes of a state -/

/-- A cell holds what a name was declared as: a procedure is stored as a function that was not there
before. -/
def Declarator.IsIn (c : FrameId) (s t : State) : Declarator → Cell → Prop
  | «variable» _, cell => cell = ⟨.empty, false⟩
  | constant _ value, cell => cell = ⟨.ofLiteral value, true⟩
  | procedure decl, cell => ∃ id : FunctionId, cell = ⟨.function id, false⟩ ∧
    s.store.functions.size ≤ id.index ∧ t.store.function? id = some (.script decl c)

/-- A state in which names have been declared in a frame of another one: each is bound to a cell of its
own, which was not there before, and nothing else has changed. -/
structure State.Declares (c : FrameId) (ds : List Declarator) (s t : State) : Prop where
  rest : t = ⟨⟨⟨t.store.cells, s.store.objects, t.store.functions⟩, s.world.response, s.world.log,
    s.world.request, s.world.clock⟩, t.frames, s.objects, s.depth, s.limit⟩
  size : t.frames.size = s.frames.size
  others : ∀ id, id ≠ c → t.frames.get id = s.frames.get id
  own : t.frames.get c = { s.frames.get c with bindings := (t.frames.get c).bindings }
  cells : ∀ id : CellId, id.index < s.store.cells.size →
    id.index < t.store.cells.size ∧ t.store.cell id = s.store.cell id
  recalls : s.Recalls t
  unnamed : ∀ name, (∀ d ∈ ds, d.name.text ≠ name) →
    (t.frames.get c).bindings.get? name = (s.frames.get c).bindings.get? name
  named : ∀ d ∈ ds, ∃ cell, (t.frames.get c).bindings.get? d.name.text = some cell ∧
    s.store.cells.size ≤ cell.index ∧ cell.index < t.store.cells.size ∧
      d.IsIn c s t (t.store.cell cell)
  apart : ∀ d ∈ ds, ∀ d' ∈ ds, (t.frames.get c).bindings.get? d.name.text =
    (t.frames.get c).bindings.get? d'.name.text → d = d'

namespace Declarator

variable {d d' : Declarator} {cell : Cell}

theorem cells_addTo (d : Declarator) : (d.addTo c s).store.cells.size = s.store.cells.size + 1 := by
  cases d <;> exact Array.size_push _

theorem cell_addTo (d : Declarator) {id : CellId} (live : id.index < s.store.cells.size) :
    (d.addTo c s).store.cell id = s.store.cell id := by
  cases d <;> exact Store.cell_newCell_of_lt live _ _

theorem recalls_addTo (d : Declarator) : s.Recalls (d.addTo c s) := by
  cases d with
  | procedure decl =>
    exact fun id f stored =>
      (Store.function?_newFunction_of_lt (Store.lt_of_function? stored) _).trans stored
  | _ => exact fun _ _ stored => stored

/-- The new cell holds what the name was declared as. -/
theorem isIn_addTo (d : Declarator) :
    d.IsIn c s (d.addTo c s) ((d.addTo c s).store.cell ⟨s.store.cells.size⟩) := by
  cases d with
  | «variable» name => exact s.store.cell_newCell_self .empty false
  | constant name value => exact s.store.cell_newCell_self (.ofLiteral value) true
  | procedure decl =>
    exact ⟨_, (s.newFunction (.script decl c)).2.store.cell_newCell_self _ false, Nat.le_refl _,
      s.store.function?_newFunction_self _⟩

/-- What a cell holds stays what was declared while functions are added. -/
theorem IsIn.later {u : State} (h : d.IsIn c s t cell) (later : t.Recalls u) : d.IsIn c s u cell := by
  cases d with
  | procedure decl =>
    obtain ⟨id, held, new, stored⟩ := h
    exact ⟨id, held, new, later _ _ stored⟩
  | _ => exact h

theorem IsIn.sooner (h : d'.IsIn c (d.addTo c s) t cell) : d'.IsIn c s t cell := by
  cases d' with
  | procedure decl =>
    obtain ⟨id, held, new, stored⟩ := h
    refine ⟨id, held, Nat.le_trans ?_ new, stored⟩
    cases d with
    | procedure decl => exact Nat.le_trans (Nat.le_succ _) (Nat.le_of_eq (Array.size_push _).symm)
    | _ => exact Nat.le_refl _
  | _ => exact h

/-- Only a procedure is declared as a function. -/
theorem IsIn.exists_procedure (h : d.IsIn c s t cell) {id : FunctionId} (held : cell.value = .function id) :
    ∃ decl, d = .procedure decl ∧ s.store.functions.size ≤ id.index ∧
      t.store.function? id = some (.script decl c) := by
  cases d with
  | «variable» => exact nomatch (congrArg Cell.value h).symm.trans held
  | constant _ value => cases value <;> exact nomatch (congrArg Cell.value h).symm.trans held
  | procedure decl =>
    obtain ⟨other, rfl, new, stored⟩ := h
    cases held
    exact ⟨decl, rfl, new, stored⟩

end Declarator

namespace State.Declares

variable {d : Declarator} {ds : List Declarator}

open Declarator

theorem nil : s.Declares c [] s where
  rest := rfl
  size := rfl
  others _ _ := rfl
  own := rfl
  cells _ live := ⟨live, rfl⟩
  recalls _ _ stored := stored
  unnamed _ _ := rfl
  named := nofun
  apart := nofun

theorem cons (live : c.index < s.frames.size) (new : d.name ∉ ds.map Declarator.name)
    (h : (d.addTo c s).Declares c ds t) : s.Declares c (d :: ds) t := by
  have after := Declarator.get_addTo_self live d
  have other : ∀ d' ∈ ds, d'.name.text ≠ d.name.text := fun d' hd' same =>
    new (Name.ext same ▸ List.mem_map_of_mem hd')
  have first : (t.frames.get c).bindings.get? d.name.text = some ⟨s.store.cells.size⟩ := by
    rw [h.unnamed _ other, after]
    exact Dictionary.get?_insert_self _ _ _
  have made : s.store.cells.size < (d.addTo c s).store.cells.size :=
    Nat.lt_of_lt_of_eq (Nat.lt_succ_self _) (cells_addTo d).symm
  -- The first name is bound to the next cell, and all later ones to cells above it.
  have later : ∀ d' ∈ ds, (t.frames.get c).bindings.get? d.name.text ≠
      (t.frames.get c).bindings.get? d'.name.text := fun d' hd' same => by
    obtain ⟨cell, bound, above, -⟩ := h.named d' hd'
    rw [first, bound] at same
    cases same
    exact Nat.not_lt_of_le above made
  refine ⟨?_, h.size.trans (Declarator.size_addTo d), fun id apart => ?_, ?_, fun id live => ?_,
    fun id f stored => h.recalls id f (recalls_addTo d id f stored), fun name unnamed => ?_,
    List.forall_mem_cons.mpr ⟨?_, fun d' hd' => ?_⟩, ?_⟩
  · cases d <;> exact h.rest
  · rw [h.others id apart, Declarator.frames_addTo]
    exact Frames.get_modify_of_ne (Ne.symm apart)
  · exact h.own.trans (after ▸ rfl)
  · obtain ⟨live', same⟩ := h.cells id (Nat.lt_trans live made)
    exact ⟨live', same.trans (cell_addTo d live)⟩
  · obtain ⟨apart, unnamed⟩ := List.forall_mem_cons.mp unnamed
    rw [h.unnamed name unnamed, after]
    exact Dictionary.get?_insert_of_ne _ apart _
  · obtain ⟨live', same⟩ := h.cells ⟨s.store.cells.size⟩ made
    exact ⟨_, first, Nat.le_refl _, live', same ▸ (isIn_addTo d).later h.recalls⟩
  · obtain ⟨cell, bound, above, live', held⟩ := h.named d' hd'
    exact ⟨cell, bound, Nat.le_trans (Nat.le_of_lt made) above, live', held.sooner⟩
  · refine List.forall_mem_cons.mpr ⟨List.forall_mem_cons.mpr ⟨fun _ => rfl, fun d' hd' same => ?_⟩,
      fun d' hd' => List.forall_mem_cons.mpr ⟨fun same => ?_, h.apart d' hd'⟩⟩
    · exact absurd same (later d' hd')
    · exact absurd same.symm (later d' hd')

end State.Declares

/-- **What declarations make of a state.** -/
theorem State.Admits.declares : ∀ {ds : List Declarator} {s : State}, c.index < s.frames.size →
    s.Admits c ds → s.Declares c ds (ds.foldl (fun s d => d.addTo c s) s)
  | [], _, _, _ => .nil
  | d :: _, _, live, h =>
    .cons live (List.nodup_cons.mp h.distinct).1
      (declares ((Declarator.size_addTo d).symm ▸ live) ((Declarator.admits_cons_iff live).mp h).2)

end PageScript
