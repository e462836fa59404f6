import PageScript.Proofs.Machine.Meets

/-!
# Proofs/Machine/Settling — runs under a bound that is large enough

The machine runs under a bound, so what it does is a family of runs, one for each bound.  A family
*settles* on an outcome if all its members from some bound on end in it.  `Conforms` says of a family
what holds at every bound, of its results and of its faults, together with whether it settles;
there is one rule for each way to build a run.
-/

namespace PageScript

/-- The outcome with its state and its fault changed. -/
def Outcome.map {α : Type} (onState : State → State) (onFault : Fault → Fault) :
    Outcome α → Outcome α
  | .done a s => .done a (onState s)
  | .failed f s => .failed (onFault f) (onState s)
  | .exhausted => .exhausted

namespace Run

variable {α β : Type} {s t : State}

/-! ## Runs around runs as changes of outcomes -/

theorem within_eq_map (place : Span) (m : Run α) (s : State) :
    within place m s = (m s).map id (·.leaving place) := by
  simp only [within, through]
  cases m s <;> rfl

theorem withObject_eq_map (object : CellId) (m : Run α) (s : State) :
    withObject object m s =
      (m { s with objects := object :: s.objects }).map
        (fun t => { t with objects := t.objects.tail }) id := by
  simp only [withObject, through]
  cases m { s with objects := object :: s.objects } <;> rfl

theorem withoutObjects_eq_map (m : Run α) (s : State) :
    withoutObjects m s =
      (m { s with objects := [] }).map (fun t => { t with objects := s.objects }) id := by
  simp only [withoutObjects, through]
  cases m { s with objects := [] } <;> rfl

theorem inCall_of_isFull {parent : FrameId} {m : FrameId → Run α} (full : s.isFull = true) :
    inCall parent m s = .failed (.of (.stackOverflow s.limit)) s := by
  simp only [inCall, through, full, if_true]

theorem inCall_eq_map {parent : FrameId} (m : FrameId → Run α) (room : s.isFull = false) :
    inCall parent m s =
      (m (s.enter parent).1 (s.enter parent).2).map (·.leave (s.enter parent).1) id := by
  simp only [inCall, through, room, Bool.false_eq_true, if_false]
  cases m (s.enter parent).1 (s.enter parent).2 <;> rfl

/-! ## Families of runs -/

/-- From some bound on, the runs of a family end in an outcome. -/
def Settles (F : Nat → Run α) (s : State) (o : Outcome α) : Prop := ∃ n, ∀ m, n ≤ m → F m s = o

/-- What a family of runs from a state ends in: its results satisfy `done`, the causes of its faults
`fails`, and if `total` holds the family settles. -/
structure Conforms (F : Nat → Run α) (s : State) (done : α → State → Prop)
    (fails : Fault.Cause → Prop) (total : Prop) : Prop where
  done : ∀ n a t, F n s = .done a t → done a t
  fails : ∀ n f t, F n s = .failed f t → fails f.cause
  settles : total → ∃ o, o ≠ .exhausted ∧ Settles F s o

variable {F : Nat → Run α} {done : α → State → Prop} {fails : Fault.Cause → Prop} {total : Prop}

/-- A family that ends in one way at every bound. -/
theorem conforms_of_eq {o : Outcome α} (h : ∀ n, F n s = o) (ends : o ≠ .exhausted)
    (hdone : ∀ a t, o = .done a t → done a t) (hfails : ∀ f t, o = .failed f t → fails f.cause) :
    Conforms F s done fails total where
  done n a t hr := hdone a t ((h n).symm.trans hr)
  fails n f t hr := hfails f t ((h n).symm.trans hr)
  settles _ := ⟨o, ends, 0, fun m _ => h m⟩

theorem conforms_of_done {a : α} (h : ∀ n, F n s = .done a t) (hdone : done a t) :
    Conforms F s done fails total :=
  conforms_of_eq h nofun (fun _ _ hr => by cases hr; exact hdone) nofun

theorem conforms_of_failed {f : Fault} (h : ∀ n, F n s = .failed f t) (hfails : fails f.cause) :
    Conforms F s done fails total :=
  conforms_of_eq h nofun nofun fun _ _ hr => by cases hr; exact hfails

/-- The states and the faults may be changed on the way out. -/
theorem Conforms.map {f : State → State} {g : Fault → Fault} {q : α → State → Prop}
    {G : Nat → Run α} (hF : Conforms F t q fails total)
    (h : ∀ n, G n s = (F n t).map f g) (hdone : ∀ a u, q a u → done a (f u))
    (hcause : ∀ fault, (g fault).cause = fault.cause) : Conforms G s done fails total where
  done n a u hr := by
    rw [h] at hr
    cases hF' : F n t with
    | done b v =>
      rw [hF'] at hr
      cases hr
      exact hdone a v (hF.done n a v hF')
    | failed fault v => rw [hF'] at hr; cases hr
    | exhausted => rw [hF'] at hr; cases hr
  fails n fault u hr := by
    rw [h] at hr
    cases hF' : F n t with
    | failed inner v =>
      rw [hF'] at hr
      cases hr
      rw [hcause]
      exact hF.fails n inner v hF'
    | done b v => rw [hF'] at hr; cases hr
    | exhausted => rw [hF'] at hr; cases hr
  settles htotal := by
    obtain ⟨o, ends, n, settled⟩ := hF.settles htotal
    refine ⟨o.map f g, ?_, n, fun m hm => (h m).trans (congrArg _ (settled m hm))⟩
    cases o with
    | exhausted => exact absurd rfl ends
    | _ => exact nofun

/-- A family goes on as another one at the next smaller bound. -/
theorem Conforms.later {F' : Nat → Run α} (hF : Conforms F s done fails total)
    (zero : F' 0 s = .exhausted) (succ : ∀ n, F' (n + 1) s = F n s) :
    Conforms F' s done fails total where
  done
    | 0, a, t, hr => nomatch zero.symm.trans hr
    | n + 1, a, t, hr => hF.done n a t ((succ n).symm.trans hr)
  fails
    | 0, f, t, hr => nomatch zero.symm.trans hr
    | n + 1, f, t, hr => hF.fails n f t ((succ n).symm.trans hr)
  settles htotal := by
    obtain ⟨o, ends, n, settled⟩ := hF.settles htotal
    refine ⟨o, ends, n + 1, fun m hm => ?_⟩
    obtain ⟨m, rfl⟩ := Nat.exists_eq_add_of_lt hm
    exact (succ _).trans (settled _ (by omega))

theorem Conforms.bind {G : α → Nat → Run β} {q : α → State → Prop} {done : β → State → Prop}
    (hF : Conforms F s q fails total)
    (hG : ∀ a t, q a t → Conforms (G a) t done fails total) :
    Conforms (fun n => F n >>= fun a => G a n) s done fails total where
  done n b u hr := by
    obtain ⟨a, t, ha, h⟩ | ⟨f, t, -, h⟩ | h := bind_cases (F n) (fun a => G a n) s
    · exact (hG a t (hF.done n a t ha)).done n b u (h.symm.trans hr)
    · cases h.symm.trans hr
    · cases h.symm.trans hr
  fails n f u hr := by
    obtain ⟨a, t, ha, h⟩ | ⟨g, t, hg, h⟩ | h := bind_cases (F n) (fun a => G a n) s
    · exact (hG a t (hF.done n a t ha)).fails n f u (h.symm.trans hr)
    · cases h.symm.trans hr
      exact hF.fails n f u hg
    · cases h.symm.trans hr
  settles htotal := by
    obtain ⟨o, ends, n, settled⟩ := hF.settles htotal
    cases o with
    | done a t =>
      have ha : q a t := hF.done n a t (settled n (Nat.le_refl n))
      obtain ⟨o', ends', n', settled'⟩ := (hG a t ha).settles htotal
      refine ⟨o', ends', max n n', fun m hm => ?_⟩
      exact (bind_of_done (settled m (by omega))).trans (settled' m (by omega))
    | failed f t =>
      refine ⟨.failed f t, nofun, n, fun m hm => ?_⟩
      simp only [Bind.bind, Run.bind, through, settled m hm]
    | exhausted => exact absurd rfl ends

end Run

end PageScript
