import PageScript.Proofs.Machine.Discipline

/-!
# Proofs/Machine/Balance — calls, frames and `with` objects are given back

Whatever is run and however it ends, the number of running calls, the number of frames and the
objects of the enclosing `with` blocks are afterwards what they were before
(`Evaluator.balances_ofBound`).  On the way there is one more frame for each further call, and never
more calls than allowed.  A call at the limit is refused before it has a frame, and only such a call
is (`Evaluator.refusal_ofBound`).
-/

namespace PageScript

namespace State

theorem isFull_eq_false {s : State} : s.isFull = false ↔ s.depth < s.limit :=
  decide_eq_false_iff_not.trans Nat.not_le

theorem isFull_eq_true {s : State} : s.isFull = true ↔ s.limit ≤ s.depth := decide_eq_true_iff

/-- A state has as many calls, frames and `with` objects as another. -/
structure Level (s t : State) : Prop where
  depth : t.depth = s.depth
  frames : t.frames.size = s.frames.size
  objects : t.objects = s.objects
  limit : t.limit = s.limit

/-- A state has further calls, with a frame for each, but no more than allowed. -/
structure Above (s t : State) : Prop where
  depth : s.depth ≤ t.depth
  frames : t.frames.size = s.frames.size + (t.depth - s.depth)
  limit : t.limit = s.limit
  room : s.depth ≤ s.limit → t.depth ≤ t.limit

variable {s t u : State}

namespace Level

theorem trans (h : s.Level t) (h' : t.Level u) : s.Level u :=
  ⟨h'.depth.trans h.depth, h'.frames.trans h.frames, h'.objects.trans h.objects,
    h'.limit.trans h.limit⟩

/-- What is above a state is above every state level with it. -/
theorem above (h : s.Level t) (h' : t.Above u) : s.Above u := by
  obtain ⟨depth, frames, -, limit⟩ := h
  obtain ⟨depth', frames', limit', room'⟩ := h'
  rw [depth] at depth' frames' room'
  rw [frames] at frames'
  exact ⟨depth', frames', limit'.trans limit, fun h => room' (limit ▸ h)⟩

end Level

theorem Above.refl (s : State) : s.Above s :=
  ⟨Nat.le_refl _, by rw [Nat.sub_self, Nat.add_zero], rfl, fun h => h⟩

/-- The `with` objects have no part in it. -/
theorem Above.withObjects (h : s.Above t) (objects : List CellId) :
    s.Above { t with objects := objects } :=
  ⟨h.depth, h.frames, h.limit, h.room⟩

theorem Above.trans (h : s.Above t) (h' : t.Above u) : s.Above u := by
  refine ⟨Nat.le_trans h.depth h'.depth, ?_, h'.limit.trans h.limit,
    fun room => h'.room (h.room room)⟩
  have := h.depth
  have := h'.depth
  rw [h'.frames, h.frames]
  omega

/-- The frame of a call belongs to it. -/
theorem Opens.above {home : FrameId} (h : s.Opens home t) (room : s.isFull = false) :
    s.Above t := by
  obtain ⟨f, frames, -, -⟩ := h.frames
  have room : s.depth < s.limit := isFull_eq_false.mp room
  refine ⟨?_, ?_, h.limit, fun _ => ?_⟩
  · rw [h.depth]
    exact Nat.le_succ _
  · rw [frames, Frames.size_push, h.depth, Nat.add_sub_cancel_left]
  · rw [h.depth, h.limit]
    exact room

/-- Once the frame of a call is dropped, the state is level with the one the call was made in, if
its `with` objects come back. -/
theorem Opens.left {home : FrameId} (h : s.Opens home t) (h' : t.Level u) :
    s.Level { u.leave s.nextFrame with objects := s.objects } := by
  obtain ⟨f, frames, -, -⟩ := h.frames
  refine ⟨?_, ?_, rfl, h'.limit.trans h.limit⟩
  · change u.depth - 1 = s.depth
    rw [h'.depth, h.depth, Nat.add_sub_cancel]
  · change (u.frames.release s.nextFrame).size = _
    rw [Frames.size_release, h'.frames, frames, Frames.size_push]
    exact Nat.min_eq_left (Nat.le_succ _)

end State

/-! ## Balance -/

namespace Discipline

/-- To end level with the start, and to be above it on the way. -/
def balance : Discipline where
  during _ s m := s.Above m.state
  behind _ s t := s.Level t
  callable _ _ _ := True
  natives _ _ := True
  start := .refl _
  refl := ⟨rfl, rfl, rfl, rfl⟩
  trans := .trans
  later := State.Level.above
  visit := .refl _
  newCell := ⟨rfl, rfl, rfl, rfl⟩
  newObject := ⟨rfl, rfl, rfl, rfl⟩
  memberOrNew := ⟨rfl, rfl, rfl, rfl⟩
  put _ := ⟨rfl, rfl, rfl, rfl⟩
  addMember _ := ⟨rfl, rfl, rfl, rfl⟩
  putMember _ := ⟨rfl, rfl, rfl, rfl⟩
  newNative _ := ⟨rfl, rfl, rfl, rfl⟩
  tick := ⟨rfl, rfl, rfl, rfl⟩
  respond := ⟨rfl, rfl, rfl, rfl⟩
  addLine := ⟨rfl, rfl, rfl, rfl⟩
  define _ _ := ⟨rfl, Frames.size_modify, rfl, rfl⟩
  newFunction _ := ⟨rfl, rfl, rfl, rfl⟩
  setExplicit := ⟨rfl, Frames.size_modify, rfl, rfl⟩
  inside_during h := ⟨h.depth, h.frames, h.limit, h.room⟩
  inside_behind h := ⟨h.depth, h.frames, congrArg List.tail h.objects, h.limit⟩
  callable_stored _ := trivial
  callable_behind _ _ := trivial
  natives_stored _ := Callable.does_true _
  natives_behind _ _ := trivial
  calling {_ s _ _ _} _ _ := (State.Above.refl s).withObjects []
  opening _ room h _ := h.above room
  body_during _ room h _ h' := (h.above room).trans h'
  closing {_ _ _ _ _ u} _ _ h _ h' := ((h.left h').above (.refl _)).withObjects u.objects
  body_behind _ _ h _ h' := h.left h'

end Discipline

/-! ## Refusal

A fault that comes out of the body of a procedure has the place of a statement in it; the fault of a
refused call has none. -/

namespace Run

variable {α β : Type} {m : Run α} {s t : State} {f : Fault}

theorem span_of_within_failed {place : Span} (h : within place m s = .failed f t) :
    f.span.isSome := by
  cases hm : m s with
  | failed g u =>
    simp only [within, through, hm] at h
    cases h
    cases hg : g.span <;> simp [Fault.leaving, hg]
  | done a u =>
    simp only [within, through, hm] at h
    cases h
  | exhausted =>
    simp only [within, through, hm] at h
    cases h

theorem span_of_bind_failed {next : α → Run β} (h : (m >>= next) s = .failed f t)
    (hm : ∀ u, m s = .failed f u → f.span.isSome)
    (hnext : ∀ a u, m s = .done a u → next a u = .failed f t → f.span.isSome) :
    f.span.isSome := by
  obtain ⟨a, u, hr, h'⟩ | ⟨g, u, hr, h'⟩ | h' := bind_cases m next s
  · exact hnext a u hr (h'.symm.trans h)
  · cases h'.symm.trans h
    exact hm t hr
  · cases h'.symm.trans h

theorem failed_of_withoutObjects_failed (h : withoutObjects m s = .failed f t) :
    ∃ u, m { s with objects := [] } = .failed f u := by
  cases hm : m { s with objects := [] } with
  | failed g u =>
    simp only [withoutObjects, through, hm] at h
    cases h
    exact ⟨u, rfl⟩
  | done a u =>
    simp only [withoutObjects, through, hm] at h
    cases h
  | exhausted =>
    simp only [withoutObjects, through, hm] at h
    cases h

theorem withoutObjects_of_failed {u : State} (h : m { s with objects := [] } = .failed f u) :
    withoutObjects m s = .failed f { u with objects := s.objects } := by
  simp only [withoutObjects, through, h]

theorem failed_of_inCall_failed {parent : FrameId} {m : FrameId → Run α}
    (room : s.isFull = false) (h : inCall parent m s = .failed f t) :
    ∃ u, m (s.enter parent).1 (s.enter parent).2 = .failed f u := by
  cases hm : m (s.enter parent).1 (s.enter parent).2 with
  | failed g u =>
    simp only [inCall, through, room, Bool.false_eq_true, if_false, hm] at h
    cases h
    exact ⟨u, rfl⟩
  | done a u =>
    simp only [inCall, through, room, Bool.false_eq_true, if_false, hm] at h
    cases h
  | exhausted =>
    simp only [inCall, through, room, Bool.false_eq_true, if_false, hm] at h
    cases h

theorem declare_of_free {id : FrameId} {how : State.Declaration} {name : Name} {value : Value}
    (h : s.declarationFault? id how name = none) :
    declare id how name value s =
      .done (s.define id how name value).1 (s.define id how name value).2 := by
  simp only [declare, visiting, about, through, atomic, h]

end Run

theorem Stmt.span_of_declareBody_failed {c : FrameId} {f : Fault} :
    ∀ {body : List Stmt} {s t : State}, Stmt.declareBody c body s = .failed f t → f.span.isSome
  | [], _, _, h => nomatch h
  | _ :: _, _, _, h => Run.span_of_bind_failed h (fun _ => Run.span_of_within_failed)
    fun _ _ _ => span_of_declareBody_failed

namespace Evaluator

variable {ev : Evaluator} {decl : Procedure} {home : FrameId} {cells : List CellId} {s t : State}
  {f : Fault}

theorem span_of_executeBody_failed {c : FrameId} :
    ∀ {body : List Stmt} {s t : State}, ev.executeBody c body s = .failed f t → f.span.isSome
  | [], _, _, h => nomatch h
  | _ :: _, _, _, h => Run.span_of_bind_failed h (fun _ => Run.span_of_within_failed)
    fun _ _ _ => span_of_executeBody_failed

/-- A call for which there is room fails in its body only. -/
theorem span_of_runProcedure_failed (room : s.isFull = false)
    (h : ev.runProcedure decl home cells s = .failed f t) : f.span.isSome := by
  obtain ⟨u, h⟩ := Run.failed_of_withoutObjects_failed h
  rw [Run.run_about] at h
  obtain ⟨u, h⟩ := Run.failed_of_inCall_failed (s := { s with objects := [] }) room h
  have opens := (State.opens_enter s home).setProcedure decl.name
  refine Run.span_of_bind_failed h (fun _ h => nomatch h) fun _ _ hr h => ?_
  cases hr
  refine Run.span_of_bind_failed h (fun _ h => ?_) fun _ _ _ h => ?_
  · cases (Run.declare_of_free (opens.declarationFault? decl.name)).symm.trans h
  refine Run.span_of_bind_failed h (fun _ h => nomatch h) fun _ _ _ h => ?_
  refine Run.span_of_bind_failed h (fun _ => Stmt.span_of_declareBody_failed) fun _ _ _ h => ?_
  exact Run.span_of_bind_failed h (fun _ => span_of_executeBody_failed) fun _ _ _ h => nomatch h

/-- A call for which there is no room leaves the state as it is. -/
theorem runProcedure_of_isFull (full : s.isFull = true) :
    ev.runProcedure decl home cells s = .failed (.of (.stackOverflow s.limit)) s := by
  exact Run.withoutObjects_of_failed (u := { s with objects := [] }) (if_pos full)

end Evaluator

/-! ## The machine -/

namespace Run

/-- From a state on, a run has one more frame for each further call and no more calls than allowed,
and however it ends, it has given back its calls, its frames and its `with` objects. -/
structure Balances (m : Run α) (s : State) : Prop where
  limit : ∀ moment, m.visits s moment → moment.state.limit = s.limit
  depth : ∀ moment, m.visits s moment → s.depth ≤ moment.state.depth ∧ moment.state.depth ≤ s.limit
  frames : ∀ moment, m.visits s moment →
    moment.state.frames.size = s.frames.size + (moment.state.depth - s.depth)
  ends : ∀ t, (m s).state? = some t →
    t.depth = s.depth ∧ t.frames.size = s.frames.size ∧ t.objects = s.objects

/-- A run that comes to call a procedure in the state `t` is refused the call exactly if it starts
with as many calls as allowed; the refusal leaves `t` as it is and no frame has been made. -/
structure Limits (m : Run α) (s t : State) : Prop where
  refused_iff : (∃ limit u, m s = .failed (.of (.stackOverflow limit)) u) ↔ s.depth = s.limit
  refused : s.depth = s.limit → m s = .failed (.of (.stackOverflow s.limit)) t
  no_frame : s.depth = s.limit → ∀ moment, m.visits s moment →
    moment.state.frames.size = s.frames.size

/-- What keeps the balance is balanced. -/
theorem balances_of_keeps {c : FrameId} (hm : Discipline.balance.Keeps c m)
    (h : s.depth ≤ s.limit) : m.Balances s where
  limit moment hv := ((hm s).during moment hv).limit
  depth moment hv := by
    have above := (hm s).during moment hv
    exact ⟨above.depth, above.limit ▸ above.room h⟩
  frames moment hv := ((hm s).during moment hv).frames
  ends t ht := by
    cases hr : m s with
    | done a u =>
      rw [hr] at ht
      cases ht
      obtain ⟨depth, frames, objects, -⟩ := (hm s).done a t hr
      exact ⟨depth, frames, objects⟩
    | failed f u =>
      rw [hr] at ht
      cases ht
      obtain ⟨depth, frames, objects, -⟩ := (hm s).failed f t hr
      exact ⟨depth, frames, objects⟩
    | exhausted =>
      rw [hr] at ht
      cases ht

/-- A balanced run that comes to a call from level ground is limited by it. -/
theorem Balances.limits {m : Run CellId} (hm : m.Balances s) {ev : Evaluator} {decl : Procedure}
    {home : FrameId} {cells : List CellId} (level : s.Level t)
    (hcall : m s = ev.runProcedure decl home cells t) (h : s.depth ≤ s.limit) : m.Limits s t := by
  have refused (full : s.depth = s.limit) :
      m s = .failed (.of (.stackOverflow s.limit)) t := by
    have full : t.isFull = true := by
      rw [State.isFull_eq_true, level.depth, level.limit]
      exact Nat.le_of_eq full.symm
    rw [hcall, Evaluator.runProcedure_of_isFull full, level.limit]
  refine ⟨⟨?_, fun full => ⟨_, _, refused full⟩⟩, refused, ?_⟩
  · rintro ⟨limit, u, hu⟩
    refine Nat.le_antisymm h (Nat.le_of_not_lt fun room => ?_)
    have room : t.isFull = false := by
      rw [State.isFull_eq_false, level.depth, level.limit]
      exact room
    cases Evaluator.span_of_runProcedure_failed room (hcall.symm.trans hu)
  · intro full moment hv
    have depth := hm.depth moment hv
    rw [hm.frames moment hv, Nat.sub_eq_zero_of_le (full ▸ depth.2), Nat.add_zero]

end Run

namespace Evaluator

theorem call_of_passedAll {ev : Evaluator} {c : FrameId} {decl : Procedure} {home : FrameId}
    {args : List Arg} {cells : List CellId} {s t : State}
    (fits : args.length = decl.params.length)
    (passed : ev.passedAll c (decl.params.zip args) s = .done cells t) :
    ev.call c (.script decl home) args s = ev.runProcedure decl home cells t := by
  simp only [call, ne_eq, fits, not_true, if_false]
  exact Run.bind_of_done passed

theorem operand_of_evaluate {ev : Evaluator} {c : FrameId} {e : Expr} {decl : Procedure}
    {home : FrameId} {cell : CellId} {s t : State} (reference : e.isReference = true)
    (evaluated : ev.evaluate c e s = .done cell t)
    (found : t.store.bareCall? (t.store.read cell) = some (decl, home)) :
    ev.operand c e s = ev.runProcedure decl home [] t := by
  rw [operand, Run.bind_of_done evaluated, if_pos reference, Run.bind_of_done rfl]
  simp only [found]

/-- **Calls, frames and `with` objects are in balance**, whatever runs from a state with no more
calls than allowed: declarations, statements, bodies, expressions and calls.  A call, with arguments
or by a bare reference, is refused exactly at the limit, before it has a frame. -/
theorem balances_ofBound (bound : Nat) (c : FrameId) (s : State) (h : s.depth ≤ s.limit) :
    (∀ body, (Stmt.declareBody c body).Balances s) ∧
    (∀ stmt, ((ofBound bound).execute c stmt).Balances s) ∧
    (∀ body, ((ofBound bound).executeBody c body).Balances s) ∧
    (∀ body, ((ofBound bound).runBody c body).Balances s) ∧
    (∀ e, ((ofBound bound).evaluate c e).Balances s) ∧
    (∀ e, ((ofBound bound).operand c e).Balances s) ∧
    (∀ f args, ((ofBound bound).call c f args).Balances s) ∧
    (∀ decl home args cells t, args.length = decl.params.length →
      (ofBound bound).passedAll c (decl.params.zip args) s = .done cells t →
        ((ofBound bound).call c (.script decl home) args).Limits s t) ∧
    (∀ e cell decl home t, e.isReference = true → (ofBound bound).evaluate c e s = .done cell t →
      t.store.bareCall? (t.store.read cell) = some (decl, home) →
        ((ofBound bound).operand c e).Limits s t) := by
  have hev : (ofBound bound).Keeps Discipline.balance := keeps_ofBound _ bound
  have hoperand (e) : ((ofBound bound).operand c e).Balances s :=
    Run.balances_of_keeps (keeps_operand hev e) h
  have hcall (f args) : ((ofBound bound).call c f args).Balances s :=
    Run.balances_of_keeps (fun _ => keepsFrom_call hev args (Habit.calls_of_forall
      (fun _ _ => trivial) (fun _ => trivial) f)) h
  refine ⟨fun body => Run.balances_of_keeps (Stmt.keeps_declareBody body) h,
    fun stmt => Run.balances_of_keeps (hev.execute c stmt) h,
    fun body => Run.balances_of_keeps (keeps_executeBody hev body) h,
    fun body => Run.balances_of_keeps (keeps_runBody hev body) h,
    fun e => Run.balances_of_keeps (hev.evaluate c e) h, hoperand, hcall, ?_, ?_⟩
  · intro decl home args cells t fits passed
    have level := (keeps_passedAll hev (decl.params.zip args) s).done cells t passed
    exact (hcall _ args).limits level (call_of_passedAll fits passed) h
  · intro e cell decl home t reference evaluated found
    have level := (hev.evaluate c e s).done cell t evaluated
    exact (hoperand e).limits level (operand_of_evaluate reference evaluated found) h

/-- In a `with` block of a page, a procedure is called that calls itself in a `with` block of its own,
where only one call may run.  The call has a frame and the one inside it is refused; behind it the frame
is gone and the page is in its own `with` block again. -/
theorem balances_ofBound_nested :
    let o := Name.ofString "o"
    let again := Name.ofString "again"
    let call : Stmt := .call default (.call default (.var default again) [])
    let decl : Procedure := .mk again .sub [] [.withObject default (.var default o) [call]] .isPublic
    let page := ((State.start default 1).pushRoot.2.newFunction (.script decl ⟨0⟩)).2
    let named := (page.define ⟨0⟩ .unique again (.function ⟨0⟩)).2
    let s := { (named.newObject.2.define ⟨0⟩ .unique o (.object ⟨0⟩)).2 with objects := [⟨1⟩] }
    let inner := (s.enter ⟨0⟩).2
    s.depth ≤ s.limit ∧ inner.depth ≤ inner.limit ∧
      ((ofBound 9).execute ⟨0⟩ call s).fault? = some ⟨.stackOverflow 1, some default⟩ ∧
      (∀ t, ((ofBound 9).execute ⟨0⟩ call s).state? = some t →
        t.depth = 0 ∧ t.frames.size = 1 ∧ t.objects = [⟨1⟩]) ∧
      ((ofBound 9).call ⟨0⟩ (.script decl ⟨0⟩) []).Limits s s ∧
      ((ofBound 9).call ⟨1⟩ (.script decl ⟨0⟩) []).Limits inner inner := by
  intro o again call decl page named s inner
  have live : s.depth ≤ s.limit := by decide
  have live' : inner.depth ≤ inner.limit := by decide
  obtain ⟨-, execute, -, -, -, -, -, limits, -⟩ := balances_ofBound 9 ⟨0⟩ s live
  obtain ⟨-, -, -, -, -, -, -, limits', -⟩ := balances_ofBound 9 ⟨1⟩ inner live'
  exact ⟨live, live', by decide +kernel, (execute call).ends, limits _ _ _ _ _ rfl rfl,
    limits' _ _ _ _ _ rfl rfl⟩

end Evaluator

end PageScript
