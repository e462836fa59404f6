import Mathlib.Data.List.Forall2
import PageScript.Proofs.Machine.Contents
import PageScript.Proofs.Machine.Habit
import PageScript.Proofs.Machine.Meets

/-!
# Proofs/Machine/Constancy — read-only cells never change

Of any two moments of a run, the store of one has grown out of the store of the other
(`Run.Advances`): no step changes a read-only cell, makes one writable, or takes a cell or a function
away.
-/

namespace PageScript

/-! ## Runs in time -/

namespace Run

variable {α β : Type} {s : State}

/-- The moments of a run are in an order in which the store grows, from the state that the run starts
from to the state it ends in. -/
structure Advances (m : Run α) (s : State) : Prop where
  start : ∀ moment, m.visits s moment → s.store.Grows moment.state.store
  stop : ∀ moment t, m.visits s moment → (m s).state? = some t → moment.state.store.Grows t.store
  between : ∀ moment moment', m.visits s moment → m.visits s moment' →
    moment.state.store.Grows moment'.state.store ∨ moment'.state.store.Grows moment.state.store

theorem Advances.ends {m : Run α} (h : m.Advances s) {t : State} (ht : (m s).state? = some t) :
    s.store.Grows t.store :=
  h.start _ (m.visits_stop ht)

/-- A run that goes through the moments of another one, from a state and to a state with the same
stores. -/
theorem Advances.through {m : Run β} {u : State} (h : m.Advances u) {run : State → Outcome α}
    {inner : State → Moment → Prop} (first : u.store = s.store)
    (hinner : ∀ moment, inner s moment → moment.state = s ∨ m.visits u moment)
    (last : ∀ t, (run s).state? = some t → ∃ v, (m u).state? = some v ∧ v.store = t.store) :
    (through run inner).Advances s := by
  -- up to what is no matter, each moment is one of the inner run
  have inside : ∀ moment, (Run.through run inner).visits s moment →
      ∃ moment', m.visits u moment' ∧ moment'.state.store = moment.state.store := by
    rintro moment (rfl | hv | ⟨t, ht, rfl⟩)
    · exact ⟨u.moment, m.visits_start u, first⟩
    · obtain hs | hv := hinner moment hv
      · exact ⟨u.moment, m.visits_start u, hs ▸ first⟩
      · exact ⟨moment, hv, rfl⟩
    · obtain ⟨v, hv, same⟩ := last t ht
      exact ⟨v.moment, m.visits_stop hv, same⟩
  refine ⟨fun moment hv => ?_, fun moment t hv ht => ?_, fun moment moment' hv hv' => ?_⟩
  · obtain ⟨moment', hv', same⟩ := inside moment hv
    exact first ▸ same ▸ h.start moment' hv'
  · obtain ⟨moment', hv', same⟩ := inside moment hv
    obtain ⟨v, hstop, same'⟩ := last t ht
    exact same ▸ same' ▸ h.stop moment' v hv' hstop
  · obtain ⟨inner₁, hv₁, same₁⟩ := inside moment hv
    obtain ⟨inner₂, hv₂, same₂⟩ := inside moment' hv'
    exact same₁ ▸ same₂ ▸ h.between inner₁ inner₂ hv₁ hv₂

theorem advances_atomic {run : State → Outcome α}
    (h : ∀ t, (run s).state? = some t → s.store.Grows t.store) : (atomic run).Advances s := by
  refine ⟨?_, ?_, ?_⟩
  · rintro _ (rfl | ⟨⟨⟩⟩ | ⟨t, ht, rfl⟩)
    · exact .refl _
    · exact h t ht
  · rintro _ t (rfl | ⟨⟨⟩⟩ | ⟨u, hu, rfl⟩) ht
    · exact h t ht
    · exact Option.some.inj (hu.symm.trans ht) ▸ .refl _
  · rintro _ _ (rfl | ⟨⟨⟩⟩ | ⟨t, ht, rfl⟩) (rfl | ⟨⟨⟩⟩ | ⟨u, hu, rfl⟩)
    · exact .inl (.refl _)
    · exact .inl (h u hu)
    · exact .inr (h t ht)
    · exact .inl (Option.some.inj (ht.symm.trans hu) ▸ .refl _)

theorem advances_change {f : State → State} (h : s.store.Grows (f s).store) :
    (change f).Advances s :=
  advances_atomic fun _ ht => Option.some.inj ht ▸ h

theorem advances_step {f : State → α × State} (h : s.store.Grows (f s).2.store) :
    (step f).Advances s :=
  advances_atomic fun _ ht => Option.some.inj ht ▸ h

theorem Advances.bind {m : Run α} {next : α → Run β} (hm : m.Advances s)
    (hnext : ∀ a t, m s = .done a t → (next a).Advances t) : (m >>= next).Advances s := by
  cases hr : m s with
  | failed f t =>
    refine hm.through rfl (fun moment => ?_) fun u hu => ⟨u, ?_, rfl⟩
    · rintro (hv | ⟨_, _, hdone, -⟩)
      · exact .inr hv
      · cases hr.symm.trans hdone
    · have hu : ((m >>= next) s).state? = some u := hu
      rw [bind_of_failed hr] at hu
      rw [hr]
      exact hu
  | exhausted =>
    refine hm.through rfl (fun moment => ?_) fun u hu => ?_
    · rintro (hv | ⟨_, _, hdone, -⟩)
      · exact .inr hv
      · cases hr.symm.trans hdone
    · have hu : ((m >>= next) s).state? = some u := hu
      rw [bind_of_exhausted hr] at hu
      cases hu
  | done a t =>
    have further := hnext a t hr
    have ended : (m s).state? = some t := by rw [hr]; rfl
    refine ⟨fun moment hv => ?_, fun moment u hv hu => ?_, fun moment moment' hv hv' => ?_⟩
    · obtain hv | hv := visits_bind_of_done hr hv
      · exact hm.start moment hv
      · exact (hm.ends ended).trans (further.start moment hv)
    · have hu : (next a t).state? = some u := bind_of_done hr ▸ hu
      obtain hv | hv := visits_bind_of_done hr hv
      · exact (hm.stop moment t hv ended).trans (further.ends hu)
      · exact further.stop moment u hv hu
    · obtain hv | hv := visits_bind_of_done hr hv <;> obtain hv' | hv' := visits_bind_of_done hr hv'
      · exact hm.between moment moment' hv hv'
      · exact .inl ((hm.stop moment t hv ended).trans (further.start moment' hv'))
      · exact .inr ((hm.stop moment' t hv' ended).trans (further.start moment hv))
      · exact further.between moment moment' hv hv'

theorem advances_pure (a : α) : (pure a : Run α).Advances s :=
  advances_atomic fun _ ht => Option.some.inj ht ▸ .refl _

theorem Advances.about {m : Run α} (h : m.Advances s) (act : Act) : (about act m).Advances s :=
  h.through rfl (fun _ => Or.imp_left (congrArg Moment.state)) fun t ht => ⟨t, ht, rfl⟩

theorem Advances.within {m : Run α} (h : m.Advances s) (place : Span) :
    (within place m).Advances s := by
  refine h.through rfl (fun _ => .inr) fun t ht => ⟨t, ?_, rfl⟩
  cases hr : m s <;> simp only [hr] at ht <;> exact ht

theorem Advances.withObject {m : Run α} {object : CellId}
    (h : m.Advances { s with objects := object :: s.objects }) :
    (withObject object m).Advances s := by
  refine h.through rfl (fun _ => .inr) fun t ht => ?_
  cases hr : m { s with objects := object :: s.objects } <;> simp only [hr] at ht <;> cases ht <;>
    exact ⟨_, rfl, rfl⟩

theorem Advances.withoutObjects {m : Run α} (h : m.Advances { s with objects := [] }) :
    (withoutObjects m).Advances s := by
  refine h.through rfl (fun _ => .inr) fun t ht => ?_
  cases hr : m { s with objects := [] } <;> simp only [hr] at ht <;> cases ht <;>
    exact ⟨_, rfl, rfl⟩

/-- A frame that comes and goes is no matter. -/
theorem Advances.inCall {m : FrameId → Run α} {parent : FrameId}
    (h : (m (s.enter parent).1).Advances (s.enter parent).2) : (inCall parent m).Advances s := by
  cases full : s.isFull with
  | true =>
    refine (advances_pure ()).through rfl (fun moment hv => ?_) fun t ht => ?_
    · cases full.symm.trans hv.1
    · simp only [full, if_true] at ht
      cases ht
      exact ⟨_, rfl, rfl⟩
  | false =>
    refine h.through rfl (fun _ hv => .inr hv.2) fun t ht => ?_
    simp only [full, Bool.false_eq_true, if_false] at ht
    cases hr : m (s.enter parent).1 (s.enter parent).2 <;> simp only [hr] at ht <;> cases ht <;>
      exact ⟨_, rfl, rfl⟩

theorem advances_write (id : CellId) (value : Value) (refused : Fault.Cause) :
    (write id value refused).Advances s := by
  refine advances_atomic fun t ht => ?_
  split at ht
  · exact Option.some.inj ht ▸ .refl _
  · rename_i writable
    exact Option.some.inj ht ▸ Store.grows_put (Bool.eq_false_iff.mpr writable) value

theorem advances_declare (id : FrameId) (how : State.Declaration) (name : Name) (value : Value) :
    (declare id how name value).Advances s := by
  refine Advances.about (advances_atomic fun t ht => ?_) _
  split at ht
  · exact Option.some.inj ht ▸ .refl _
  · exact Option.some.inj ht ▸ s.store.grows_newCell value _

end Run

/-! ## The machine -/

/-- A name that is made by its first use gets a new cell. -/
theorem State.grows_resolve (s : State) (c : FrameId) (name : Name) (mayDeclare : Bool) :
    s.store.Grows (s.resolve c name mayDeclare).2.store := by
  obtain h | ⟨-, h⟩ := s.resolve_cases c name mayDeclare
  · rw [h]
    exact .refl _
  · rw [h]
    exact s.store.grows_newCell .empty _

theorem State.grows_write (s : State) (id : CellId) (value : Value) :
    s.store.Grows (s.write id value).2.store := by
  unfold State.write
  split
  · exact .refl _
  · rename_i writable
    exact Store.grows_put (Bool.eq_false_iff.mpr writable) value

/-- Binding parameters makes no cell. -/
theorem State.store_bindAll {frame : FrameId} : ∀ (pairs : List (Param × CellId)) (s : State),
    (pairs.foldl (fun s (p, cell) => s.bind frame p.name cell) s).store = s.store
  | [], _ => rfl
  | (p, cell) :: rest, s => store_bindAll rest (s.bind frame p.name cell)

theorem Evaluator.advances_bindAll (frame : FrameId) (params : List Param) (args : List CellId)
    {s : State} : (bindAll frame params args).Advances s := by
  refine Run.Advances.about (Run.advances_change ?_) _
  rw [State.store_bindAll]
  exact .refl _

open Run in
/-- The store grows from moment to moment. -/
def Habit.advance : Habit where
  Has _ s m := m.Advances s
  callable _ _ _ := True
  natives s deed := ∀ p, s.store.Does p → p deed
  has_pure := advances_pure
  has_fail _ := advances_atomic fun _ ht => Option.some.inj ht ▸ .refl _
  has_exhausted := advances_atomic nofun
  has_look _ := advances_atomic fun _ ht => Option.some.inj ht ▸ .refl _
  has_newCell v readonly := advances_step (Store.grows_newCell _ v readonly)
  has_newObject := advances_step (Store.grows_newObject _)
  has_memberOrNew id name := advances_step (Store.grows_memberOrNew _ id name)
  has_write := advances_write
  has_accept id v := advances_step (State.grows_write _ id v)
  has_addMember id name cell := advances_step (Store.grows_addMember _ id name cell)
  has_putMember allowed _ cell := advances_change (Store.grows_putMember
    (fun spared => absurd (allowed _ spared) Bool.noConfusion) cell)
  has_newNative does _ _ := advances_step (Store.grows_newFunction _ fun natives =>
    Service.Does.mono (fun _ allowed => allowed _ natives) does)
  has_failAt _ _ := advances_atomic fun _ ht => Option.some.inj ht ▸ .refl _
  has_tick := advances_step (.refl _)
  has_respond _ := advances_change (.refl _)
  has_addLine _ := advances_change (.refl _)
  has_resolve name := advances_step (State.grows_resolve _ _ name true)
  has_declare name v _ := advances_declare _ _ name v
  has_newFunction _ := advances_step (Store.grows_newFunction _ fun _ => trivial)
  has_setExplicit _ := advances_change (.refl _)
  has_bind := Advances.bind
  has_visiting hm := hm.about _
  has_within place hm := hm.within place
  has_withObject _ hm := hm.withObject
  callable_stored _ := trivial
  callable_behind _ _ _ := trivial
  natives_stored := State.does_all
  natives_behind hm hr allowed _ does :=
    allowed _ ((hm.ends (by rw [hr]; rfl)).toExtends.does does)
  has_call {c s ev decl home args} _ body := by
    refine Advances.withoutObjects (Advances.about (Advances.inCall ?_) _)
    refine (Advances.about (advances_change (.refl _)) _).bind fun _ _ _ => ?_
    refine (advances_declare _ _ _ _).bind fun result _ _ => ?_
    exact (Evaluator.advances_bindAll _ _ _).bind fun _ t _ => body _ result t

/-- The read-only cells that two moments of a run both have are the same in both. -/
def Run.Constant {α : Type} (m : Run α) (s : State) : Prop :=
  ∀ moment moment', m.visits s moment → m.visits s moment' →
    ∀ id, moment.state.store.isReadonly id = true → id.index < moment'.state.store.cells.size →
      moment'.state.store.cell id = moment.state.store.cell id

theorem Run.Advances.constant {α : Type} {m : Run α} {s : State} (h : m.Advances s) :
    m.Constant s :=
  fun moment moment' hv hv' _ => Store.Grows.cell_eq (h.between moment moment' hv hv')

/-! ## Refused writes -/

namespace Run

theorem write_of_isReadonly {s : State} {id : CellId} (h : s.store.isReadonly id = true)
    (value : Value) (refused : Fault.Cause) : write id value refused s = .failed (.of refused) s :=
  if_pos h

end Run

/-- A write that a native function tries on a read-only cell is refused. -/
theorem Deed.perform_write_of_isReadonly {r : Registers} {cell value : Nat} {id : CellId} {v : Value}
    {s : State} (hcell : r.cells[cell]? = some id) (hvalue : r.values[value]? = some v)
    (readonly : s.store.isReadonly id = true) :
    (Deed.write cell value).perform r s = .done (false, r) s := by
  have found : r.cell cell s = .done id s := by rw [Registers.cell, hcell]; rfl
  have found' : r.value value s = .done v s := by rw [Registers.value, hvalue]; rfl
  have refused : Run.step (·.write id v) s = .done false s := by
    simp only [Run.step, Run.atomic, Run.through, State.write, readonly, if_true]
  exact (Run.bind_of_done found).trans ((Run.bind_of_done found').trans (Run.bind_of_done refused))

theorem Deed.perform_write_of_writable {r : Registers} {cell value : Nat} {id : CellId} {v : Value}
    {s : State} (hcell : r.cells[cell]? = some id) (hvalue : r.values[value]? = some v)
    (writable : s.store.isReadonly id = false) :
    (Deed.write cell value).perform r s = .done (true, r) (s.put id v) := by
  have found : r.cell cell s = .done id s := by rw [Registers.cell, hcell]; rfl
  have found' : r.value value s = .done v s := by rw [Registers.value, hvalue]; rfl
  have accepted : Run.step (·.write id v) s = .done true (s.put id v) := by
    simp only [Run.step, Run.atomic, Run.through, State.write, writable, Bool.false_eq_true, if_false]
  exact (Run.bind_of_done found).trans ((Run.bind_of_done found').trans (Run.bind_of_done accepted))

/-- Cells are filled in order, up to a read-only one. -/
theorem Routine.fill_of_isReadonly {r : Registers} {v : Value} {next : Routine} {register : Nat}
    {cell : CellId} {rest : List Nat} (hvalue : r.values[0]? = some v)
    (hcell : r.cells[register]? = some cell) {registers : List Nat} {before : List CellId}
    (at_hand : List.Forall₂ (fun i id => r.cells[i]? = some id) registers before) :
    ∀ {s : State}, (∀ id ∈ before, s.store.isReadonly id = false) →
      s.store.isReadonly cell = true →
        (fill (registers ++ register :: rest) next).run r s =
          .failed (.of (.host "argument is read-only")) (before.foldl (·.put · v) s) := by
  induction at_hand with
  | nil =>
    intro s _ readonly
    exact Run.bind_of_done (Deed.perform_write_of_isReadonly hcell hvalue readonly)
  | @cons _ id _ before first _ ih =>
    intro s writable readonly
    obtain ⟨here, further⟩ := List.forall_mem_cons.mp writable
    have kept (other : CellId) : (s.put id v).store.isReadonly other = s.store.isReadonly other :=
      s.store.isReadonly_put id v other
    refine (Run.bind_of_done (Deed.perform_write_of_writable first hvalue here)).trans ?_
    exact ih (fun other mem => (kept other).trans (further other mem)) ((kept cell).trans readonly)

namespace Evaluator

/-- Whatever writes to a read-only cell fails in the state that it has come to, where nothing has
been written.  There is one field for each place at which the machine writes; how an alias of the
cell has come about is no matter. -/
structure RefusesWrites (ev : Evaluator) : Prop where
  assign : ∀ {c span target value s t u v cell}, ev.operandValue c value s = .done v t →
    ev.place c target t = .done cell u → u.store.isReadonly cell = true →
      ev.executeStmt c (.assign span target value) s =
        .failed (.of (.readonlyWrite target.display)) u
  count : ∀ {c span var first last step body s s₁ s₂ s₃ u x y z counter},
    ev.operandNumber c first s = .done x s₁ → ev.operandNumber c last s₁ = .done y s₂ →
      ev.operandNumber c step s₂ = .done z s₃ → variableCell c var s₃ = .done counter u →
        u.store.isReadonly counter = true →
          ev.executeStmt c (.count span var first last step body) s =
            .failed (.of (.readonlyWrite var.text)) u
  pass : ∀ {c var counter last step body s t x y}, (s.store.read counter).toNumber = .ok x →
    ¬(if step ≥ 0 then x > last else x < last) → ev.executeBody c body s = .done () t →
      (t.store.read counter).toNumber = .ok y → t.store.isReadonly counter = true →
        ev.countPass c var counter last step body s = .failed (.of (.readonlyWrite var.text)) t
  each : ∀ {c var element body item items s}, s.store.isReadonly element = true →
    ev.eachPass c var element body (item :: items) s = .failed (.of (.readonlyWrite var.text)) s
  native : ∀ {r : Registers} {cell value id v s}, r.cells[cell]? = some id →
    r.values[value]? = some v → s.store.isReadonly id = true →
      (Deed.write cell value).perform r s = .done (false, r) s
  filled : ∀ {value held before cell rest s}, (∀ id ∈ before, s.store.isReadonly id = false) →
    s.store.isReadonly cell = true →
      (Service.assign value).call held (before ++ cell :: rest) s =
        .failed (.of (.host "argument is read-only")) (before.foldl (·.put · (.ofLiteral value)) s)

theorem refusesWrites (ev : Evaluator) : ev.RefusesWrites where
  assign hvalue hplace readonly :=
    (Run.bind_of_done hvalue).trans <| (Run.bind_of_done hplace).trans <|
      Run.write_of_isReadonly readonly _ _
  count hfirst hlast hstep hcounter readonly :=
    (Run.bind_of_done hfirst).trans <| (Run.bind_of_done hlast).trans <|
      (Run.bind_of_done hstep).trans <| (Run.bind_of_done hcounter).trans <|
        Run.bind_of_failed (Run.write_of_isReadonly readonly _ _)
  pass {c var counter last step body s t x y} hx due hbody hy readonly := by
    have number {u : State} {z : Float} (h : (u.store.read counter).toNumber = .ok z) :
        Run.ofExcept (u.store.read counter).toNumber u = .done z u := by rw [h]; rfl
    refine (Run.bind_of_done rfl).trans ((Run.bind_of_done (number hx)).trans ?_)
    rw [if_neg due]
    refine (Run.bind_of_done hbody).trans ((Run.bind_of_done rfl).trans ?_)
    refine (Run.bind_of_done (number hy)).trans ?_
    exact Run.bind_of_failed (Run.write_of_isReadonly readonly _ _)
  each readonly :=
    (Run.bind_of_done rfl).trans <| Run.bind_of_failed (Run.write_of_isReadonly readonly _ _)
  native := Deed.perform_write_of_isReadonly
  filled {value held before cell rest s} writable readonly := by
    let cells := (before ++ cell :: rest) ++ held
    have registers : List.range (before ++ cell :: rest).length =
        List.range before.length ++ before.length ::
          ((List.range rest.length).map Nat.succ).map (before.length + ·) := by
      rw [List.length_append, List.range_add, List.length_cons, List.range_succ_eq_map, List.map_cons,
        Nat.add_zero]
    have at_hand : List.Forall₂ (fun i id => cells[i]? = some id) (List.range before.length) before := by
      refine List.forall₂_iff_get.mpr ⟨List.length_range, fun i hi hi' => ?_⟩
      simp [cells, List.getElem?_append_left hi', hi']
    have next : cells[before.length]? = some cell := by simp [cells]
    refine (Run.bind_of_done (a := ((), ⟨cells, [.ofLiteral value]⟩)) rfl).trans ?_
    rw [registers]
    exact Routine.fill_of_isReadonly rfl next at_hand writable readonly

end Evaluator

end PageScript
