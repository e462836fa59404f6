import PageScript.Proofs.Machine.Course
import PageScript.Proofs.Machine.Results

/-!
# Proofs/Machine/Enclosing — the object of the enclosing `with` block

A `with` block keeps the cell that its expression denotes, not the object in it.  The members that
the body refers to are looked up in the object that this cell holds when they are: an assignment to
the variable in the body takes effect there (`Stage.retargets_withObject`).  The cell itself stays
the same for the whole body.  Nested blocks and calls have other objects and put these back behind
them, so no stage of the body that is not inside of them sees another one
(`Stage.encloses_withObject`).
-/

namespace PageScript

open Run
open Evaluator (ofBound SharesPlace)

/-- What becomes of a state while a run in a frame goes on: calls, frames and `with` objects are as
before, names and cells are still there. -/
structure State.Later (c : FrameId) (s t : State) : Prop where
  level : s.Level t
  frames : s.frames.Touches c t.frames
  store : s.store.Grows t.store

namespace State.Later

variable {α : Type} {c : FrameId} {s t u : State}

theorem refl (c : FrameId) (s : State) : s.Later c s :=
  ⟨⟨rfl, rfl, rfl, rfl⟩, .refl _ _, .refl _⟩

theorem trans (h : s.Later c t) (h' : t.Later c u) : s.Later c u :=
  ⟨h.level.trans h'.level, h.frames.trans h'.frames, h.store.trans h'.store⟩

/-- Whatever has every habit leads to a later state. -/
theorem of_has {m : Run α} {a : α} (h : ∀ H : Habit, H.Has c s m) (ends : m s = .done a t) :
    s.Later c t where
  level := (h Discipline.balance.habit).done a t ends
  frames := (h Discipline.locality.habit).done a t ends
  store := (h Habit.advance).ends (by rw [ends]; rfl)

/-- The same for a family of runs, one for each bound. -/
theorem of_obeys {F : Nat → Run α} {a : α}
    (h : ∀ (H : Habit) n, (ofBound n).Obeys H.conduct → H.conduct.Obeys c (F n))
    (ends : ∃ n, F n s = .done a t) : s.Later c t := by
  obtain ⟨n, ends⟩ := ends
  exact of_has (fun H => h H n (Evaluator.follows_ofBound H n).obeys s) ends

theorem put {cell : CellId} (writable : s.store.isReadonly cell = false) (value : Value) :
    s.Later c (s.put cell value) :=
  ⟨⟨rfl, rfl, rfl, rfl⟩, .refl _ _, s.store.grows_put writable value⟩

/-- A read-only cell keeps its value. -/
theorem read_eq (h : s.Later c t) {cell : CellId} (readonly : s.store.isReadonly cell = true) :
    t.store.read cell = s.store.read cell :=
  congrArg Cell.value (h.store.readonly readonly)

end State.Later

namespace Stage

variable {a b : Stage}

/-- A part of a run is run in the same frame, with the same `with` objects, from a later state. -/
theorem Turns.later (h : a.Turns b) : b.frame = a.frame ∧ a.state.Later a.frame b.state := by
  cases h with
  | isRight h => exact ⟨rfl, .of_obeys (fun _ _ hev => hev.evaluate _ _) h⟩
  | right _ h | assigned h | cases h | different h _ =>
    exact ⟨rfl, .of_obeys (fun _ _ hev => Evaluator.obeys_operandValue hev _) h⟩
  | operands h _ | passing h _ _ =>
    exact ⟨rfl, .of_obeys (fun _ _ hev => Evaluator.obeys_calledValue hev _) h⟩
  | arguments h => exact ⟨rfl, .of_obeys (fun _ _ hev => Evaluator.obeys_operand hev _) h⟩
  | passed h => exact ⟨rfl, .of_obeys (fun _ _ hev => Evaluator.obeys_passed hev _ _) h⟩
  | further h => exact ⟨rfl, .of_obeys (fun _ _ hev => hev.execute _ _ fun _ _ => trivial) h⟩
  | branch h | pass h _ => exact ⟨rfl, .of_obeys (fun _ _ hev => Evaluator.obeys_condition hev _) h⟩
  | again h =>
    exact ⟨rfl, .of_obeys (fun _ _ hev => Evaluator.obeys_loopPass hev (fun _ _ => trivial) _ _) h⟩
  | tested h =>
    exact ⟨rfl, .of_obeys (fun _ _ hev => Evaluator.obeys_executeBody hev fun _ _ => trivial) h⟩
  | countLast h => exact ⟨rfl, .of_obeys (fun _ _ hev => Evaluator.obeys_operandNumber hev _) h⟩
  | countStep hfirst hlast =>
    have first := State.Later.of_obeys (fun _ _ hev => Evaluator.obeys_operandNumber hev _) hfirst
    exact ⟨rfl, first.trans (.of_obeys (fun _ _ hev => Evaluator.obeys_operandNumber hev _) hlast)⟩
  | count hfirst hlast hstep hvar writable =>
    have first := State.Later.of_obeys (fun _ _ hev => Evaluator.obeys_operandNumber hev _) hfirst
    have last := State.Later.of_obeys (fun _ _ hev => Evaluator.obeys_operandNumber hev _) hlast
    have step := State.Later.of_obeys (fun _ _ hev => Evaluator.obeys_operandNumber hev _) hstep
    have var := State.Later.of_obeys (fun _ _ _ => Evaluator.obeys_variableCell _) ⟨0, hvar⟩
    exact ⟨rfl, first.trans (last.trans (step.trans (var.trans (.put writable _))))⟩
  | countAgain h =>
    exact ⟨rfl, .of_obeys (fun _ _ hev => Evaluator.obeys_countPass hev (fun _ _ => trivial) _ _ _ _) h⟩
  | each hcollection hvar =>
    have collection :=
      State.Later.of_obeys (fun _ _ hev => Evaluator.obeys_operandValue hev _) hcollection
    have var := State.Later.of_obeys (fun _ _ _ => Evaluator.obeys_variableCell _) ⟨0, hvar⟩
    exact ⟨rfl, collection.trans var⟩
  | eachPass writable => exact ⟨rfl, .put writable _⟩
  | eachNext writable h =>
    have body := State.Later.of_obeys (fun _ _ hev => Evaluator.obeys_executeBody hev fun _ _ => trivial) h
    exact ⟨rfl, (State.Later.put writable _).trans body⟩
  | selected h | unselected h =>
    exact ⟨rfl, .of_obeys (fun _ _ hev => Evaluator.obeys_matchesAny hev _ _) h⟩
  | _ => exact ⟨rfl, .refl _ _⟩

/-- What is run without entering a body has the frame and the `with` objects of the whole. -/
theorem Leads.later (h : a.Leads b) : b.frame = a.frame ∧ a.state.Later a.frame b.state := by
  induction h with
  | refl => exact ⟨rfl, .refl _ _⟩
  | tail _ turns ih =>
    obtain ⟨frame, later⟩ := turns.later
    exact ⟨frame.trans ih.1, ih.2.trans (ih.1 ▸ later)⟩

end Stage

/-! ## Members of the enclosing object -/

namespace Evaluator

variable {ev : Evaluator} {c : FrameId} {s : State} {cell : CellId} {rest : List CellId}

theorem enclosingObject_of_objects (enclosed : s.objects = cell :: rest) :
    enclosingObject s = .done (s.store.read cell) s := by
  refine (bind_of_done (a := s.objects) (t := s) rfl).trans ?_
  rw [enclosed]
  rfl

/-- A callee that is not the name of the running procedure is evaluated. -/
theorem calledValue_of_recursionCell? {callee : Expr} (other : recursionCell? s c callee = none) :
    ev.calledValue c callee s = (ev.evaluate c callee >>= fun cell => Run.read cell) s := by
  refine (bind_of_done (a := none) (t := s) ?_).trans rfl
  exact congrArg (Outcome.done · s) other

end Evaluator

namespace Stage

/-- **A `with` block has one cell, and looks its members up in what this holds.**  If the expression
of a block evaluates to a cell, the body runs with this cell in front of the objects around it, which
are back behind the block however it ends.  Wherever the body comes to without entering another body,
behind nested blocks and calls as well, `.member` means a member of the object in that cell: for a
read-only cell the object that was there at first, for another one the object that is there at that
moment. -/
theorem encloses_withObject {bound : Nat} {c : FrameId} {s t : State} {e : Expr} {cell : CellId}
    (entered : (ofBound bound).operand c e s = .done cell t) (place : Span) (body : List Stmt) :
    let inside := { t with objects := cell :: t.objects }
    let block := (ofBound (bound + 1)).execute c (.withObject place e body)
    block s = ((ofBound bound).executeBody c body inside).map
        (fun u => { u with objects := u.objects.tail }) id ∧
      (∀ u, (block s).state? = some u → u.objects = s.objects) ∧
      ∀ stage, Leads ⟨c, .body body, inside⟩ stage →
        stage.frame = c ∧ stage.state.objects = cell :: s.objects ∧
        (t.store.isReadonly cell = true → stage.state.store.read cell = t.store.read cell) ∧
        ∀ n span name,
          (ofBound (n + 1)).evaluate c (.withMember span name) stage.state =
            Evaluator.memberCell (stage.state.store.read cell) name stage.state ∧
          (ofBound n).place c (.withMember span name) stage.state =
            Evaluator.memberPlace (stage.state.store.read cell) name stage.state ∧
          (ofBound (n + 1)).calledValue c (.withMember span name) stage.state =
            (Evaluator.memberCell (stage.state.store.read cell) name >>= fun cell => Run.read cell)
              stage.state := by
  intro inside block
  have before : s.Later c t := .of_obeys (fun _ _ hev => Evaluator.obeys_operand hev e) ⟨bound, entered⟩
  have runs : block s = ((ofBound bound).executeBody c body inside).map
      (fun u => { u with objects := u.objects.tail }) id :=
    (bind_of_done entered).trans (withObject_eq_map _ _ _)
  refine ⟨runs, fun u ends => ?_, fun stage leads => ?_⟩
  · have keeps := ((Evaluator.keeps_ofBound Discipline.balance (bound + 1)).execute c
      (.withObject place e body) s)
    cases ran : block s with
    | done _ v =>
      rw [ran] at ends
      exact Option.some.inj ends ▸ (keeps.done _ _ ran).objects
    | failed f v =>
      rw [ran] at ends
      exact Option.some.inj ends ▸ (keeps.failed _ _ ran).objects
    | exhausted =>
      rw [ran] at ends
      cases ends
  · obtain ⟨frame, later⟩ := leads.later
    have enclosed : stage.state.objects = cell :: t.objects := later.level.objects
    refine ⟨frame, enclosed.trans (before.level.objects ▸ rfl), later.read_eq, fun n span name => ?_⟩
    have evaluated : (ofBound (n + 1)).evaluate c (.withMember span name) stage.state =
        Evaluator.memberCell (stage.state.store.read cell) name stage.state :=
      bind_of_done (Evaluator.enclosingObject_of_objects enclosed)
    refine ⟨evaluated, bind_of_done (Evaluator.enclosingObject_of_objects enclosed), ?_⟩
    refine (Evaluator.calledValue_of_recursionCell? rfl).trans ?_
    simp only [Bind.bind, Run.bind, through, evaluated]

/-- In a block with a constant, a member that is read in the body is one of the object that the
constant is. -/
theorem encloses_withObject_constant :
    let o := Name.ofString "o"
    let m := Name.ofString "m"
    let x := Name.ofString "x"
    let member := (State.start default 8).pushRoot.2.newObject.2.memberOrNew ⟨0⟩ m
    let s := (member.2.define ⟨0⟩ .readonly o (.object ⟨0⟩)).2
    let body : List Stmt := [.assign default (.var default x) (.withMember default m)]
    (ofBound 1).operand ⟨0⟩ (.var default o) s = .done ⟨1⟩ s ∧
      ∃ u, Leads ⟨⟨0⟩, .body body, { s with objects := ⟨1⟩ :: s.objects }⟩
          ⟨⟨0⟩, .evaluate (.withMember default m), u⟩ ∧
        (ofBound 1).evaluate ⟨0⟩ (.withMember default m) u = .done member.1 u := by
  intro o m x member s body
  have entered : (ofBound 1).operand ⟨0⟩ (.var default o) s = .done ⟨1⟩ s := rfl
  refine ⟨entered, _, .tail (.tail (.single .first) .value) .operand, ?_⟩
  obtain ⟨-, -, encloses⟩ := encloses_withObject entered default body
  obtain ⟨-, -, constant, members⟩ :=
    encloses _ (.tail (.tail (.single .first) .value) .operand)
  rw [(members 0 default m).1, constant rfl]
  rfl

/-- A block does not keep the object that its expression evaluated to: once the variable is assigned
another one, a member of the first object is not found. -/
theorem retargets_withObject :
    let o := Name.ofString "o"
    let p := Name.ofString "p"
    let m := Name.ofString "m"
    let member := (State.start default 8).pushRoot.2.newObject.2.memberOrNew ⟨0⟩ m
    let first := (member.2.define ⟨0⟩ .unique o (.object ⟨0⟩)).2
    let s := (first.newObject.2.define ⟨0⟩ .unique p (.object ⟨1⟩)).2
    let body : List Stmt := [.assign default (.var default o) (.var default p),
      .assign default (.withMember default m) (.withMember default m)]
    ∃ cell t u, (ofBound 1).operand ⟨0⟩ (.var default o) s = .done cell t ∧
      Leads ⟨⟨0⟩, .body body, { t with objects := cell :: t.objects }⟩
        ⟨⟨0⟩, .evaluate (.withMember default m), u⟩ ∧
      Evaluator.memberCell (t.store.read cell) m u = .done member.1 u ∧
      (ofBound 1).evaluate ⟨0⟩ (.withMember default m) u = .failed (.of (.memberNotFound m.text)) u := by
  intro o p m member first s body
  have retargeted : Turns ⟨⟨0⟩, .body body, { s with objects := ⟨1⟩ :: s.objects }⟩ _ :=
    .further ⟨2, rfl⟩
  exact ⟨⟨1⟩, s, _, rfl, .tail (.tail (.tail (.single retargeted) .first) .value) .operand, rfl, rfl⟩

end Stage

end PageScript
