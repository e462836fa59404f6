import PageScript.Proofs.Machine.Agreement
import PageScript.Proofs.Machine.Membership
import PageScript.Proofs.Machine.Services

/-!
# Proofs/Machine/Walking — walking over the members of an object

A `for each` loop takes the cells of the members that its object has when it is entered, and makes a
pass for each of them (`Evaluator.Walks`).  A run only edits the members of objects
(`Discipline.membership`).  As long as native functions put no member in place of another one, an
object then loses no member and gives none another cell or another place in the order
(`Store.Edits.adds`), so at each pass the cell at hand is the one that the name of the member leads to
by then: the variable takes the value that the member has when its turn comes.  Members that the body
adds stand behind those that the loop takes (`Evaluator.walks_forEach`).
-/

namespace PageScript

open Run
open Evaluator (ofBound)

/-! ## Objects in time -/

/-- What is only asked for stands behind what was there. -/
theorem Dictionary.entries_prefix {α : Type} {edits : List (Edit α)} : ∀ (d : Dictionary α)
    {e : Dictionary α}, (∀ edit ∈ edits, edit.replaces = false) → e.toIndexes = d.after edits →
      d.entries <+: e.entries := by
  induction edits with
  | nil => exact fun d e _ same => congrArg Indexes.entries same ▸ List.prefix_rfl
  | cons edit edits ih =>
    intro d e asking same
    obtain ⟨asks, further⟩ := List.forall_mem_cons.mp asking
    refine List.IsPrefix.trans ?_ (ih ⟨d.edit edit, d.inStep.edit edit⟩ further same)
    obtain ⟨inserts, replaces | none⟩ | ⟨there, -⟩ := d.edit_cases edit
    · exact absurd (asks.symm.trans replaces) Bool.false_ne_true
    · have new : edit.name ∉ d.entries.map Prod.fst :=
        d.entries_map_fst ▸ d.inStep.get?_eq_none_iff.mp none
      have added := (d.entries_insert edit.name edit.entry).trans (putIn_of_notMem new)
      exact ⟨_, (congrArg Indexes.entries inserts ▸ added).symm⟩
    · exact congrArg Indexes.entries there ▸ List.prefix_rfl

namespace Store

variable {s t u : Store}

/-- The members of the objects, with their cells and in their order, are still in front of all
others. -/
def Adds (s t : Store) : Prop := ∀ id, (s.members id).entries <+: (t.members id).entries

/-- Where native functions replace no members, members are only added. -/
theorem Edits.adds (h : s.Edits t) (spared : s.Does (·.replaces = false)) : s.Adds t := by
  intro id
  obtain ⟨edits, asking, members⟩ := h.members id
  exact Dictionary.entries_prefix _ (asking spared) members

end Store

namespace Evaluator

/-! ## Walks -/

/-- Some cells have been walked over: one after the other the variable has been given the value in the
cell, and the body has been run. -/
inductive Walks (ev : Evaluator) (c : FrameId) (element : CellId) (body : List Stmt) :
    List CellId → State → State → Prop
  | nil {s} : Walks ev c element body [] s s
  | cons {cell cells s t u} (writable : s.store.isReadonly element = false)
    (pass : ev.executeBody c body (s.put element (s.store.read cell)) = .done () t)
    (further : Walks ev c element body cells t u) : Walks ev c element body (cell :: cells) s u

/-- One pass: the variable gets the value in a cell, and the body is run. -/
def cellPass (ev : Evaluator) (c : FrameId) (var : Name) (element : CellId) (body : List Stmt)
    (cell : CellId) : Run Unit := do
  let value ← Run.read cell
  Run.write element value (.readonlyWrite var.text)
  ev.executeBody c body

variable {ev : Evaluator} {c : FrameId} {var : Name} {element cell : CellId} {cells : List CellId}
  {body : List Stmt} {id : ObjectId} {name : Name} {s t u : State}

/-- What a pass does: unless the variable is read-only, it runs the body with the value in place. -/
theorem cellPass_eq : ev.cellPass c var element body cell s =
    if s.store.isReadonly element then .failed (.of (.readonlyWrite var.text)) s
    else ev.executeBody c body (s.put element (s.store.read cell)) := by
  refine (bind_of_done rfl).trans ?_
  split
  · rename_i readonly
    exact bind_of_failed (write_of_isReadonly readonly _ _)
  · rename_i writable
    exact bind_of_done (if_neg writable)

/-- A pass that ends with a result has written to the variable. -/
theorem cellPass_inv (h : ev.cellPass c var element body cell s = .done () t) :
    s.store.isReadonly element = false ∧
      ev.executeBody c body (s.put element (s.store.read cell)) = .done () t := by
  rw [cellPass_eq] at h
  split at h
  · cases h
  · rename_i writable
    exact ⟨Bool.eq_false_iff.mpr writable, h⟩

theorem cellPass_of_writable (writable : s.store.isReadonly element = false)
    (pass : ev.executeBody c body (s.put element (s.store.read cell)) = .done () t) :
    ev.cellPass c var element body cell s = .done () t := by
  rw [cellPass_eq, if_neg (Bool.eq_false_iff.mp writable), pass]

theorem eachPass_cons : ev.eachPass c var element body (cell :: cells) s =
    (ev.cellPass c var element body cell >>= fun _ => ev.eachPass c var element body cells) s := by
  rw [cellPass, bind_assoc]
  refine bind_congr _ (fun value t => ?_) s
  exact (bind_assoc (Run.write element value (.readonlyWrite var.text))
    (fun _ => ev.executeBody c body) (fun _ => ev.eachPass c var element body cells) t).symm

/-- Passes that end with a result have walked over all of the cells. -/
theorem eachPass_done : ∀ {cells : List CellId} {s : State},
    ev.eachPass c var element body cells s = .done () u ↔ ev.Walks c element body cells s u
  | [], s => by
    refine ⟨?_, ?_⟩
    · rintro ⟨⟩
      exact .nil
    · rintro ⟨⟩
      rfl
  | cell :: cells, s => by
    rw [eachPass_cons]
    constructor
    · intro h
      obtain ⟨_, t, pass, further⟩ := done_of_bind_done h
      obtain ⟨writable, body⟩ := cellPass_inv pass
      exact .cons writable body (eachPass_done.mp further)
    · rintro (_ | ⟨writable, pass, further⟩)
      exact (bind_of_done (cellPass_of_writable writable pass)).trans (eachPass_done.mpr further)

/-- Passes that do not end with a result have walked over some of the cells, and stop at the next
one. -/
theorem eachPass_stop {stop : Outcome Unit} (hstop : ∀ u, stop ≠ .done () u) :
    ∀ {cells : List CellId} {s : State}, ev.eachPass c var element body cells s = stop ↔
      ∃ visited cell rest v, cells = visited ++ cell :: rest ∧
        ev.Walks c element body visited s v ∧ ev.cellPass c var element body cell v = stop
  | [], s => by
    refine iff_of_false (fun h => hstop s h.symm) ?_
    rintro ⟨visited, cell, rest, v, h, -⟩
    exact absurd h (by simp)
  | cell :: cells, s => by
    have step : ev.eachPass c var element body (cell :: cells) s = stop ↔
        ev.cellPass c var element body cell s = stop ∨
          ∃ t, ev.cellPass c var element body cell s = .done () t ∧
            ev.eachPass c var element body cells t = stop := by
      rw [eachPass_cons]
      cases pass : ev.cellPass c var element body cell s with
      | done a t =>
        rw [bind_of_done pass, or_iff_right fun h => hstop t h.symm]
        exact ⟨fun h => ⟨t, rfl, h⟩, fun ⟨_, same, h⟩ => by cases same; exact h⟩
      | failed f t =>
        rw [bind_of_failed pass]
        exact ⟨.inl, Or.rec (·) fun ⟨_, same, _⟩ => nomatch same⟩
      | exhausted =>
        rw [bind_of_exhausted pass]
        exact ⟨.inl, Or.rec (·) fun ⟨_, same, _⟩ => nomatch same⟩
    rw [step]
    constructor
    · rintro (first | ⟨t, pass, further⟩)
      · exact ⟨[], cell, cells, s, rfl, .nil, first⟩
      · obtain ⟨writable, body⟩ := cellPass_inv pass
        obtain ⟨visited, other, rest, v, rfl, walked, stops⟩ := (eachPass_stop hstop).mp further
        exact ⟨cell :: visited, other, rest, v, rfl, .cons writable body walked, stops⟩
    · rintro ⟨visited, other, rest, v, same, walked, stops⟩
      cases walked with
      | nil =>
        cases same
        exact .inl stops
      | @cons _ _ _ t _ writable pass further =>
        cases same
        exact .inr ⟨t, cellPass_of_writable writable pass,
          (eachPass_stop hstop).mpr ⟨_, _, _, v, rfl, further, stops⟩⟩

/-- While cells are walked over, members are only edited. -/
theorem edits_walks {bound : Nat} (h : (ofBound bound).Walks c element body cells s u) :
    s.store.Edits u.store := by
  induction h with
  | nil => exact .refl _
  | @cons cell cells s t u writable pass _ ih =>
    have keeps := keeps_executeBody (keeps_ofBound Discipline.membership bound) body (c := c)
      (s.put element (s.store.read cell))
    have passed : (s.put element (s.store.read cell)).store.Edits t.store := keeps.done () t pass
    have written : s.store.Edits (s.put element (s.store.read cell)).store := .still rfl rfl
    exact (written.trans passed).trans ih

theorem memberCell_of_get? (h : (s.store.members id).get? name.text = some cell) :
    memberCell (.object id) name s = .done cell s := by
  refine (bind_of_done (a := some cell) (t := s) (congrArg (Outcome.done · s) h)).trans ?_
  rfl

/-- **A loop over an object walks the members that it has when it is entered.**  Behind the expression
for the object, the members are known with their cells, and then the variable.  A loop ends with a
result if all of these members have been walked over, in their order, each once.  A loop that does not
end with a result has walked over some of them, and stops at the next one, because the variable is
read-only or since the body does not end with a result.  As long as native functions replace no
members, the cell at hand in a pass is at that moment the one of the member, under whatever name or
reference the object has been changed meanwhile, so the variable gets the value that the member has
when its pass begins; and members that are added on the way stand behind those that the loop takes,
and are not walked over. -/
theorem walks_forEach {bound : Nat} {c : FrameId} {collection : Expr} {id : ObjectId} {s t : State}
    (entered : (ofBound bound).operandValue c collection s = .done (.object id) t) (place : Span)
    (var : Name) (body : List Stmt) :
    let entries := (t.store.members id).entries
    let loop := (ofBound (bound + 1)).execute c (.forEach place var collection body)
    (∀ fault u, variableCell c var t = .failed fault u → loop s = .failed fault u) ∧
    ∀ element u, variableCell c var t = .done element u →
      (∀ v, loop s = .done () v ↔ (ofBound bound).Walks c element body (entries.map Prod.snd) u v) ∧
      (∀ stop, (∀ v, stop ≠ .done () v) → (loop s = stop ↔
        ∃ visited name cell rest v, entries = visited ++ (name, cell) :: rest ∧
          (ofBound bound).Walks c element body (visited.map Prod.snd) u v ∧
          (if v.store.isReadonly element then .failed (.of (.readonlyWrite var.text)) v
            else (ofBound bound).executeBody c body (v.put element (v.store.read cell))) = stop)) ∧
      (t.store.Does (·.replaces = false) →
        ∀ visited v, (ofBound bound).Walks c element body visited u v →
          entries <+: (v.store.members id).entries ∧
            ∀ name cell, (name, cell) ∈ entries → memberCell (.object id) name v = .done cell v) := by
  intro entries loop
  have runs : loop s = (variableCell c var >>= fun element =>
      (ofBound bound).eachPass c var element body (t.store.members id).values) t :=
    (bind_of_done entered).trans (bind_of_done rfl)
  refine ⟨fun fault u resolved => runs.trans (bind_of_failed resolved), fun element u resolved => ?_⟩
  have walk : loop s = (ofBound bound).eachPass c var element body (entries.map Prod.snd) u :=
    runs.trans ((bind_of_done resolved).trans (Dictionary.entries_map_snd _ ▸ rfl))
  rw [walk]
  refine ⟨fun v => eachPass_done, fun stop hstop => ?_, fun spared visited v walked => ?_⟩
  · rw [eachPass_stop hstop]
    constructor
    · rintro ⟨visited, cell, rest, v, split, walked, stops⟩
      obtain ⟨before, further, same, rfl, further'⟩ := List.map_eq_append_iff.mp split
      obtain ⟨⟨name, _⟩, behind, rfl, rfl, -⟩ := List.map_eq_cons_iff.mp further'
      exact ⟨before, name, _, behind, v, same, walked, cellPass_eq ▸ stops⟩
    · rintro ⟨visited, name, cell, rest, v, same, walked, stops⟩
      refine ⟨visited.map Prod.snd, cell, rest.map Prod.snd, v, ?_, walked, cellPass_eq.trans stops⟩
      rw [same, List.map_append, List.map_cons]
  · have resolving : Discipline.membership.KeepsFrom c t (variableCell c var) :=
      obeys_variableCell (U := Discipline.membership.habit.conduct) var t
    have resolves : t.store.Edits u.store := resolving.done element u resolved
    have adds := (resolves.trans (edits_walks walked)).adds spared id
    exact ⟨adds, fun name cell h => memberCell_of_get? (Dictionary.mem_entries.mp (adds.subset h))⟩

/-- A loop over the response of the standard host, the body of which adds a member, makes one pass for
each of the two members that the response has. -/
theorem walks_forEach_adding :
    let o := Name.ofString "o"
    let x := Name.ofString "x"
    let n := Name.ofString "n"
    let world : World := { World.new .empty with store := (Host.standard .empty).2 }
    let s := ((State.start world 8).pushRoot.2.define ⟨0⟩ .unique o (.object ⟨0⟩)).2
    let body : List Stmt :=
      [.assign default (.member default (.var default o) n) (.literal default (.boolean true))]
    (ofBound 4).operandValue ⟨0⟩ (.var default o) s = .done (.object ⟨0⟩) s ∧
      s.store.Does (·.replaces = false) ∧
      ∃ element u v, variableCell ⟨0⟩ x s = .done element u ∧
        (ofBound 4).Walks ⟨0⟩ element body [⟨0⟩, ⟨1⟩] u v ∧
        memberCell (.object ⟨0⟩) (Name.ofString "AddHeader") v = .done ⟨1⟩ v ∧
        (v.store.members ⟨0⟩).names = [Name.ofString "Write", Name.ofString "AddHeader", n] := by
  intro o x n world s body
  have entered : (ofBound 4).operandValue ⟨0⟩ (.var default o) s = .done (.object ⟨0⟩) s := rfl
  have spared : s.store.Does (·.replaces = false) :=
    (Host.modest_standard (Store.does_empty _)).mono fun _ => Deed.IsModest.replaces
  obtain ⟨-, walks⟩ := walks_forEach entered default x body
  obtain ⟨done, -, kept⟩ := walks ⟨4⟩ _ rfl
  have walked : (ofBound 4).Walks ⟨0⟩ ⟨4⟩ body [⟨0⟩, ⟨1⟩] _ _ := (done _).mp rfl
  obtain ⟨-, members⟩ := kept spared _ _ walked
  refine ⟨entered, spared, ⟨4⟩, _, _, rfl, walked, members _ _ ?_, ?_⟩
  · exact List.mem_cons_of_mem _ List.mem_cons_self
  · decide

end Evaluator

end PageScript
