import PageScript.Machine.Run

/-!
# Proofs/Machine/Meets — what a run comes through and where it ends

`m.Meets s during done failed` bounds everything that the run `m` can be seen to do from the state
`s`: all its moments satisfy `during`, the end with a result satisfies `done`, the end with a fault
`failed`.  A run that reaches the bound on its steps ends nowhere, but its moments count.  There is
one rule for each way to build a run; larger runs are bounded by the rules alone.
-/

namespace PageScript

/-- An outcome with a fault is a failure. -/
theorem Outcome.eq_failed_of_fault? {α : Type} {o : Outcome α} {f : Fault} (h : o.fault? = some f) :
    ∃ t, o = .failed f t := by
  cases o <;> cases h
  exact ⟨_, rfl⟩

namespace Run

variable {α β : Type} {s : State} {during : Moment → Prop} {done : α → State → Prop}
  {failed : State → Prop}

/-- The moments of a run from a state satisfy `during`, and its ends `done` or `failed`. -/
structure Meets (m : Run α) (s : State) (during : Moment → Prop) (done : α → State → Prop)
    (failed : State → Prop) : Prop where
  during : ∀ moment, m.visits s moment → during moment
  done : ∀ a t, m s = .done a t → done a t
  failed : ∀ f t, m s = .failed f t → failed t

/-- Bounds may be relaxed. -/
theorem Meets.mono {m : Run α} {during' : Moment → Prop} {done' : α → State → Prop}
    {failed' : State → Prop} (h : m.Meets s during done failed)
    (hduring : ∀ moment, during moment → during' moment) (hdone : ∀ a t, done a t → done' a t)
    (hfailed : ∀ t, failed t → failed' t) : m.Meets s during' done' failed' :=
  ⟨fun moment hv => hduring moment (h.during moment hv), fun a t ht => hdone a t (h.done a t ht),
    fun f t ht => hfailed t (h.failed f t ht)⟩

/-- An end of a run is one of its moments. -/
theorem Meets.during_stop {m : Run α} (h : m.Meets s during done failed) {t : State}
    (ht : (m s).state? = some t) : during t.moment :=
  h.during _ (m.visits_stop ht)

/-- The rule under all others: the first moment, those in between, and the end. -/
theorem meets_through {run : State → Outcome α} {inner : State → Moment → Prop}
    (start : during s.moment) (hinner : ∀ moment, inner s moment → during moment)
    (hdone : ∀ a t, run s = .done a t → during t.moment ∧ done a t)
    (hfailed : ∀ f t, run s = .failed f t → during t.moment ∧ failed t) :
    (through run inner).Meets s during done failed where
  during := by
    rintro moment (rfl | hv | ⟨t, ht, rfl⟩)
    · exact start
    · exact hinner moment hv
    · cases hr : run s with
      | done a u =>
        rw [hr] at ht
        exact Option.some.inj ht ▸ (hdone a u hr).1
      | failed f u =>
        rw [hr] at ht
        exact Option.some.inj ht ▸ (hfailed f u hr).1
      | exhausted =>
        rw [hr] at ht
        cases ht
  done a t h := (hdone a t h).2
  failed f t h := (hfailed f t h).2

/-- A run of a single step: the first moment and the end. -/
theorem meets_atomic {run : State → Outcome α} (start : during s.moment)
    (hdone : ∀ a t, run s = .done a t → during t.moment ∧ done a t)
    (hfailed : ∀ f t, run s = .failed f t → during t.moment ∧ failed t) :
    (atomic run).Meets s during done failed :=
  meets_through start (fun _ h => h.elim) hdone hfailed

/-! ## Single steps -/

theorem meets_pure {a : α} (start : during s.moment) (hdone : done a s) :
    (pure a : Run α).Meets s during done failed := by
  refine meets_atomic start (fun b t h => ?_) (fun f t h => nomatch h)
  cases h
  exact ⟨start, hdone⟩

theorem meets_look {f : State → α} (start : during s.moment) (hdone : done (f s) s) :
    (look f).Meets s during done failed := by
  refine meets_atomic start (fun b t h => ?_) (fun f t h => nomatch h)
  cases h
  exact ⟨start, hdone⟩

theorem meets_change {f : State → State} {done : Unit → State → Prop} (start : during s.moment)
    (stop : during (f s).moment) (hdone : done () (f s)) :
    (change f).Meets s during done failed := by
  refine meets_atomic start (fun b t h => ?_) (fun f t h => nomatch h)
  cases h
  exact ⟨stop, hdone⟩

theorem meets_step {f : State → α × State} (start : during s.moment)
    (stop : during (f s).2.moment) (hdone : done (f s).1 (f s).2) :
    (step f).Meets s during done failed := by
  refine meets_atomic start (fun b t h => ?_) (fun f t h => nomatch h)
  cases h
  exact ⟨stop, hdone⟩

theorem meets_failAt {cause : Fault.Cause} {place : Option Span} (start : during s.moment)
    (hfailed : failed s) : (failAt cause place : Run α).Meets s during done failed := by
  refine meets_atomic start (fun b t h => nomatch h) (fun f t h => ?_)
  cases h
  exact ⟨start, hfailed⟩

theorem meets_fail {cause : Fault.Cause} (start : during s.moment) (hfailed : failed s) :
    (fail cause : Run α).Meets s during done failed :=
  meets_failAt start hfailed

theorem meets_exhausted (start : during s.moment) :
    (exhausted : Run α).Meets s during done failed :=
  meets_atomic start (fun _ _ h => nomatch h) (fun _ _ h => nomatch h)

theorem meets_write {id : CellId} {value : Value} {refused : Fault.Cause}
    {done : Unit → State → Prop} (start : during s.moment)
    (stop : s.store.isReadonly id = false →
      during (s.put id value).moment ∧ done () (s.put id value))
    (hfailed : failed s) : (write id value refused).Meets s during done failed := by
  refine meets_atomic start (fun b t h => ?_) (fun f t h => ?_)
  · split at h
    · cases h
    · rename_i writable
      cases h
      exact stop (Bool.eq_false_iff.mpr writable)
  · split at h
    · cases h
      exact ⟨start, hfailed⟩
    · cases h

/-! ## Runs made of runs -/

theorem bind_of_done {m : Run α} {next : α → Run β} {a : α} {t : State} (h : m s = .done a t) :
    (m >>= next) s = next a t := by
  simp only [Bind.bind, Run.bind, through, h]

theorem bind_of_failed {m : Run α} {next : α → Run β} {f : Fault} {t : State}
    (h : m s = .failed f t) : (m >>= next) s = .failed f t := by
  simp only [Bind.bind, Run.bind, through, h]

theorem bind_of_exhausted {m : Run α} {next : α → Run β} (h : m s = .exhausted) :
    (m >>= next) s = .exhausted := by
  simp only [Bind.bind, Run.bind, through, h]

/-- A run behind another ends in its own way, or not at all because the first one does not end with
a result. -/
theorem bind_cases (m : Run α) (next : α → Run β) (s : State) :
    (∃ a t, m s = .done a t ∧ (m >>= next) s = next a t) ∨
      (∃ f t, m s = .failed f t ∧ (m >>= next) s = .failed f t) ∨
        (m >>= next) s = .exhausted := by
  cases hr : m s with
  | done a t => exact .inl ⟨a, t, rfl, bind_of_done hr⟩
  | failed f t => exact .inr (.inl ⟨f, t, rfl, bind_of_failed hr⟩)
  | exhausted => exact .inr (.inr (bind_of_exhausted hr))

/-- The moments of a run behind another one, if it comes to it, are those of either. -/
theorem visits_bind_of_done {m : Run α} {next : α → Run β} {a : α} {t : State}
    (h : m s = .done a t) {moment : Moment} (hv : (m >>= next).visits s moment) :
    m.visits s moment ∨ (next a).visits t moment := by
  obtain rfl | (hv | ⟨_, _, hdone, hv⟩) | ⟨u, hu, rfl⟩ := hv
  · exact .inl (m.visits_start s)
  · exact .inl hv
  · cases h.symm.trans hdone
    exact .inr hv
  · have hu : ((m >>= next) s).state? = some u := hu
    exact .inr ((next a).visits_stop (bind_of_done h ▸ hu))

theorem Meets.bind {m : Run α} {next : α → Run β} {q : α → State → Prop}
    {done : β → State → Prop} (hm : m.Meets s during q failed)
    (hnext : ∀ a t, m s = .done a t → q a t → (next a).Meets t during done failed) :
    (m >>= next).Meets s during done failed := by
  refine meets_through (hm.during _ (m.visits_start s)) ?_ ?_ ?_
  · rintro moment (hv | ⟨a, t, hr, hv⟩)
    · exact hm.during moment hv
    · exact (hnext a t hr (hm.done a t hr)).during moment hv
  · intro b u hb
    obtain ⟨a, t, hr, h⟩ | ⟨f, t, -, h⟩ | h := bind_cases m next s
    · have hu : next a t = .done b u := h.symm.trans hb
      have h := hnext a t hr (hm.done a t hr)
      exact ⟨h.during_stop (by rw [hu]; rfl), h.done b u hu⟩
    · cases h.symm.trans hb
    · cases h.symm.trans hb
  · intro f u hf
    obtain ⟨a, t, hr, h⟩ | ⟨g, t, hr, h⟩ | h := bind_cases m next s
    · have hu : next a t = .failed f u := h.symm.trans hf
      have h := hnext a t hr (hm.done a t hr)
      exact ⟨h.during_stop (by rw [hu]; rfl), h.failed f u hu⟩
    · cases h.symm.trans hf
      exact ⟨hm.during_stop (by rw [hr]; rfl), hm.failed f u hr⟩
    · cases h.symm.trans hf

theorem Meets.about {m : Run α} {act : Act} (hact : during ⟨act, s⟩)
    (hm : m.Meets s during done failed) : (about act m).Meets s during done failed := by
  refine meets_through (hm.during _ (m.visits_start s)) ?_ ?_ ?_
  · rintro moment (rfl | hv)
    · exact hact
    · exact hm.during moment hv
  · exact fun a t h => ⟨hm.during_stop (h ▸ rfl), hm.done a t h⟩
  · exact fun f t h => ⟨hm.during_stop (h ▸ rfl), hm.failed f t h⟩

theorem Meets.visiting {m : FrameId → Run α} {frame : FrameId}
    (hvisit : during ⟨.visit frame, s⟩) (hm : (m frame).Meets s during done failed) :
    (visiting frame m).Meets s during done failed :=
  Meets.about hvisit hm

theorem meets_declare {id : FrameId} {how : State.Declaration} {name : Name} {value : Value}
    {done : CellId → State → Prop} (start : during s.moment) (hvisit : during ⟨.visit id, s⟩)
    (stop : s.declarationFault? id how name = none →
      during (s.define id how name value).2.moment ∧
        done (s.define id how name value).1 (s.define id how name value).2)
    (hfailed : s.declarationFault? id how name ≠ none → failed s) :
    (declare id how name value).Meets s during done failed := by
  refine Meets.visiting hvisit (meets_atomic start (fun b t h => ?_) (fun f t h => ?_))
  · split at h
    · cases h
    · rename_i free
      cases h
      exact stop free
  · split at h
    · rename_i refused
      cases h
      exact ⟨start, hfailed (by rw [refused]; exact nofun)⟩
    · cases h

theorem Meets.within {m : Run α} (hm : m.Meets s during done failed) (place : Span) :
    (within place m).Meets s during done failed := by
  refine meets_through (hm.during _ (m.visits_start s)) hm.during ?_ ?_
  · intro a t h
    split at h
    · cases h
    · exact ⟨hm.during_stop (h ▸ rfl), hm.done a t h⟩
  · intro f t h
    split at h
    · rename_i hr
      cases h
      exact ⟨hm.during_stop (by rw [hr]; rfl), hm.failed _ _ hr⟩
    · exact ⟨hm.during_stop (h ▸ rfl), hm.failed f t h⟩

theorem Meets.withObject {m : Run α} {object : CellId} (start : during s.moment)
    (hm : m.Meets { s with objects := object :: s.objects } during
      (fun a t => during { t with objects := t.objects.tail }.moment ∧
        done a { t with objects := t.objects.tail })
      fun t => during { t with objects := t.objects.tail }.moment ∧
        failed { t with objects := t.objects.tail }) :
    (withObject object m).Meets s during done failed := by
  refine meets_through start hm.during ?_ ?_
  · intro a t h
    split at h
    · rename_i hr
      cases h
      exact hm.done _ _ hr
    · cases h
    · cases h
  · intro f t h
    split at h
    · cases h
    · rename_i hr
      cases h
      exact hm.failed _ _ hr
    · cases h

theorem Meets.withoutObjects {m : Run α} (start : during s.moment)
    (hm : m.Meets { s with objects := [] } during
      (fun a t => during { t with objects := s.objects }.moment ∧
        done a { t with objects := s.objects })
      fun t => during { t with objects := s.objects }.moment ∧
        failed { t with objects := s.objects }) :
    (withoutObjects m).Meets s during done failed := by
  refine meets_through start hm.during ?_ ?_
  · intro a t h
    dsimp only at h
    split at h
    · rename_i hr
      cases h
      exact hm.done _ _ hr
    · cases h
    · cases h
  · intro f t h
    dsimp only at h
    split at h
    · cases h
    · rename_i hr
      cases h
      exact hm.failed _ _ hr
    · cases h

/-- A call that is refused ends where it starts; else the frame is dropped behind what is run in
it. -/
theorem Meets.inCall {m : FrameId → Run α} {parent : FrameId} (start : during s.moment)
    (refused : s.isFull = true → failed s)
    (hm : s.isFull = false → (m (s.enter parent).1).Meets (s.enter parent).2 during
      (fun a t => during (t.leave (s.enter parent).1).moment ∧ done a (t.leave (s.enter parent).1))
      fun t => during (t.leave (s.enter parent).1).moment ∧
        failed (t.leave (s.enter parent).1)) :
    (inCall parent m).Meets s during done failed := by
  refine meets_through start (fun moment h => (hm h.1).during moment h.2) ?_ ?_
  · intro a t h
    split at h
    · cases h
    · rename_i room
      have hm := hm (Bool.eq_false_iff.mpr room)
      cases hr : m (s.enter parent).1 (s.enter parent).2 with
      | done b u =>
        simp only [hr] at h
        cases h
        exact hm.done _ _ hr
      | failed g u => simp only [hr, reduceCtorEq] at h
      | exhausted => simp only [hr, reduceCtorEq] at h
  · intro f t h
    split at h
    · rename_i full
      cases h
      exact ⟨start, refused full⟩
    · rename_i room
      have hm := hm (Bool.eq_false_iff.mpr room)
      cases hr : m (s.enter parent).1 (s.enter parent).2 with
      | done b u => simp only [hr, reduceCtorEq] at h
      | failed g u =>
        simp only [hr] at h
        cases h
        exact hm.failed _ _ hr
      | exhausted => simp only [hr, reduceCtorEq] at h

end Run

end PageScript
