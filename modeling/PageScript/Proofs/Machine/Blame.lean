import PageScript.Proofs.Machine.Balance
import PageScript.Proofs.Machine.Constancy
import PageScript.Proofs.Machine.Services
import PageScript.Proofs.Machine.Settling

/-!
# Proofs/Machine/Blame — a fault carries the place of the innermost statement that failed

`r.IsPart t m s` says that the run of `m` from the state `s` comes to run `r` from the state `t`: as
one of the runs in a row, within a `with` block, in the frame of a call, or as a statement that is
declared or executed.  A fault of a part is a fault of the whole: it comes out as it is once it has a
place (`Run.IsPart.failed`), and without a place it gets that of the innermost statement around it
(`Run.IsPart.attributed`).

Whatever declares, executes or runs statements and fails, the fault has the place of a statement that
failed on the way, on whose behalf none had failed before; no statement around it and no caller
changes that (`Evaluator.attributes_ofBound`).  A call that is refused before it has a frame counts as
a failure of the statement that makes it.  Native functions are taken to leave the places of their
faults to the statements that call them: one that gave a place of its own would be believed.
-/

namespace PageScript

open Evaluator (ofBound)

/-! ## The runs that a run is made of -/

/-- A statement as it is declared or executed in a frame. -/
inductive Attempt where
  | declare (frame : FrameId) (stmt : Stmt)
  | execute (bound : Nat) (frame : FrameId) (stmt : Stmt)

namespace Attempt

/-- The statement. -/
def stmt : Attempt → Stmt
  | declare _ stmt | execute _ _ stmt => stmt

/-- What the statement does. -/
def run : Attempt → Run Unit
  | declare frame stmt => stmt.declare frame
  | execute bound frame stmt => (Evaluator.ofBound bound).execute frame stmt

/-- What the statement does among others: a fault that leaves it gets its place. -/
def placed (a : Attempt) : Run Unit := Run.within a.stmt.span a.run

theorem placed_of_failed {a : Attempt} {f : Fault} {s t : State} (h : a.run s = .failed f t) :
    a.placed s = .failed (f.leaving a.stmt.span) t := by
  rw [placed, Run.within_eq_map, h]
  rfl

end Attempt

/-- A fault with a place keeps it. -/
theorem Fault.leaving_of_span {f : Fault} (h : f.span.isSome) (place : Span) :
    f.leaving place = f := by
  obtain ⟨cause, span⟩ := f
  cases span with
  | none => cases h
  | some => rfl

theorem Fault.span_leaving (f : Fault) (place : Span) : (f.leaving place).span.isSome := by
  obtain ⟨cause, span⟩ := f
  cases span <;> rfl

namespace Run

/-- A run from a state is run within another one, out of which its faults come as they are. -/
inductive Inner : {α β : Type} → Run β → State → Run α → State → Prop
  | first {α β : Type} {m : Run β} {next : β → Run α} {s : State} : Inner m s (m >>= next) s
  | next {α β : Type} {m : Run β} {next : β → Run α} {s t : State} {a : β} (done : m s = .done a t) :
    Inner (next a) t (m >>= next) s
  | about {α : Type} {act : Act} {m : Run α} {s : State} : Inner m s (about act m) s
  | withObject {α : Type} {object : CellId} {m : Run α} {s : State} :
    Inner m { s with objects := object :: s.objects } (withObject object m) s
  | withoutObjects {α : Type} {m : Run α} {s : State} :
    Inner m { s with objects := [] } (withoutObjects m) s
  | inCall {α : Type} {parent : FrameId} {m : FrameId → Run α} {s : State}
    (room : s.isFull = false) :
    Inner (m (s.enter parent).1) (s.enter parent).2 (inCall parent m) s

/-- A run from a state is part of another one. -/
inductive IsPart {β : Type} (r : Run β) (t : State) : {α : Type} → Run α → State → Prop
  | self : IsPart r t r t
  | inner {α γ : Type} {m : Run γ} {n : Run α} {s u : State} (part : IsPart r t m u)
    (inner : Inner m u n s) : IsPart r t n s
  | attempt {a : Attempt} {s : State} (part : IsPart r t a.run s) : IsPart r t a.placed s

variable {α β γ : Type} {m : Run α} {n : Run γ} {r : Run β} {s t u v : State} {f : Fault}
  {cause : Fault.Cause}

theorem Inner.isPart (h : Inner r t m s) : r.IsPart t m s := .inner .self h

theorem IsPart.trans (h : r.IsPart t m s) (h' : m.IsPart s n u) : r.IsPart t n u := by
  induction h' with
  | self => exact h
  | inner _ inner ih => exact .inner ih inner
  | attempt _ ih => exact .attempt ih

theorem Inner.visits (h : Inner r t m s) {moment : Moment} (hv : r.visits t moment) :
    m.visits s moment := by
  cases h with
  | first => exact .inr (.inl (.inl hv))
  | next done => exact .inr (.inl (.inr ⟨_, _, done, hv⟩))
  | about => exact .inr (.inl (.inr hv))
  | withObject | withoutObjects => exact .inr (.inl hv)
  | inCall room => exact .inr (.inl ⟨room, hv⟩)

/-- The moments of a part are moments of the whole. -/
theorem IsPart.visits (h : r.IsPart t m s) {moment : Moment} (hv : r.visits t moment) :
    m.visits s moment := by
  induction h with
  | self => exact hv
  | inner _ inner ih => exact inner.visits ih
  | attempt _ ih => exact .inr (.inl ih)

/-- What all native functions do that are there at the start of a run, they do all through it. -/
theorem IsPart.does (h : r.IsPart t m s) (advances : m.Advances s) {p : Deed → Prop}
    (does : s.store.Does p) : t.store.Does p :=
  (advances.start _ (h.visits (r.visits_start t))).natives does

theorem Inner.failed (h : Inner r t m s) (hr : r t = .failed f u) : ∃ v, m s = .failed f v := by
  cases h with
  | first => exact ⟨u, bind_of_failed hr⟩
  | next done => exact ⟨u, (bind_of_done done).trans hr⟩
  | about => exact ⟨u, hr⟩
  | withObject =>
    rw [withObject_eq_map, hr]
    exact ⟨_, rfl⟩
  | withoutObjects =>
    rw [withoutObjects_eq_map, hr]
    exact ⟨_, rfl⟩
  | inCall room =>
    rw [inCall_eq_map _ room, hr]
    exact ⟨_, rfl⟩

/-- **A fault of a part that has a place comes out of the whole as it is.** -/
theorem IsPart.failed (h : r.IsPart t m s) (hr : r t = .failed f u) (place : f.span.isSome) :
    ∃ v, m s = .failed f v := by
  induction h with
  | self => exact ⟨u, hr⟩
  | inner _ inner ih =>
    obtain ⟨v, hm⟩ := ih
    exact inner.failed hm
  | attempt _ ih =>
    obtain ⟨v, ha⟩ := ih
    exact ⟨v, Fault.leaving_of_span place _ ▸ Attempt.placed_of_failed ha⟩

/-- **A fault of a part that has no place comes out as it is or gets the place of the innermost
statement around the part.** -/
theorem IsPart.attributed (h : r.IsPart t m s) (hr : r t = .failed (.of cause) u) :
    (∃ v, m s = .failed (.of cause) v) ∨ ∃ (a : Attempt) (v w : State),
      a.placed.IsPart v m s ∧ r.IsPart t a.run v ∧ a.run v = .failed (.of cause) w := by
  induction h with
  | self => exact .inl ⟨u, hr⟩
  | inner part inner ih =>
    obtain ⟨v, hm⟩ | ⟨a, v, w, whole, part, ha⟩ := ih
    · exact .inl (inner.failed hm)
    · exact .inr ⟨a, v, w, .inner whole inner, part, ha⟩
  | @attempt a s part ih =>
    obtain ⟨v, ha⟩ | ⟨b, v, w, whole, part, hb⟩ := ih
    · exact .inr ⟨a, s, v, .self, part, ha⟩
    · exact .inr ⟨b, v, w, .attempt whole, part, hb⟩

/-- A statement whose fault has no place runs no statement that fails. -/
theorem IsPart.ne_failed {a b : Attempt} (h : b.placed.IsPart t a.run s)
    (ha : a.run s = .failed (.of cause) u) : b.run t ≠ .failed f v := by
  intro hb
  obtain ⟨w, hw⟩ := h.failed (Attempt.placed_of_failed hb) (f.span_leaving _)
  have same : f.leaving b.stmt.span = .of cause := (Outcome.failed.inj (hw.symm.trans ha)).1
  have place := f.span_leaving b.stmt.span
  rw [same] at place
  cases place

end Run

namespace Run

variable {α β : Type} {m : Run α} {s t : State} {f : Fault}
  {Q : Fault → (β : Type) → Run β → State → Prop}

/-! ## Where a fault comes from -/

/-- Each fault of a run that has a place comes from a part of some kind. -/
def Sourced (Q : Fault → (β : Type) → Run β → State → Prop) (m : Run α) (s : State) : Prop :=
  ∀ f t, m s = .failed f t → f.span.isSome → ∃ β r u, Q f β r u ∧ r.IsPart u m s

/-- A run of the kind. -/
theorem sourced_self (h : ∀ f t, m s = .failed f t → f.span.isSome → Q f α m s) :
    m.Sourced Q s :=
  fun f t hf place => ⟨α, m, s, h f t hf place, .self⟩

/-- A run whose faults have no place. -/
theorem sourced_of_bare (bare : ∀ f t, m s = .failed f t → f.span = none) : m.Sourced Q s :=
  fun f t h place => nomatch (bare f t h ▸ place : (none : Option Span).isSome)

/-- A run without faults. -/
theorem sourced_of_ne_failed (never : ∀ f t, m s ≠ .failed f t) : m.Sourced Q s :=
  fun f t h => absurd h (never f t)

/-- A run that succeeds. -/
theorem sourced_of_done {a : α} (h : m s = .done a t) : m.Sourced Q s :=
  sourced_of_ne_failed fun _ _ hf => nomatch h.symm.trans hf

/-- A run whose faults are those of a run in it. -/
theorem Sourced.inner {n : Run β} (inner : Inner m t n s)
    (back : ∀ f u, n s = .failed f u → ∃ v, m t = .failed f v) (hm : m.Sourced Q t) :
    n.Sourced Q s := by
  intro f u h place
  obtain ⟨v, hv⟩ := back f u h
  obtain ⟨γ, r, w, source, part⟩ := hm f v hv place
  exact ⟨γ, r, w, source, part.trans inner.isPart⟩

theorem Sourced.bind {next : α → Run β} (hm : m.Sourced Q s)
    (hnext : ∀ a t, m s = .done a t → (next a).Sourced Q t) : (m >>= next).Sourced Q s := by
  obtain ⟨a, t, hr, h⟩ | ⟨g, t, hr, h⟩ | h := bind_cases m next s
  · exact (hnext a t hr).inner (.next hr) fun f u hf => ⟨u, h.symm.trans hf⟩
  · refine hm.inner .first fun f u hf => ⟨t, ?_⟩
    cases h.symm.trans hf
    exact hr
  · exact sourced_of_ne_failed fun f u hf => nomatch h.symm.trans hf

theorem Sourced.about {act : Act} (hm : m.Sourced Q s) : (Run.about act m).Sourced Q s :=
  hm.inner .about fun _ u h => ⟨u, h⟩

theorem Sourced.withObject {object : CellId}
    (hm : m.Sourced Q { s with objects := object :: s.objects }) :
    (Run.withObject object m).Sourced Q s := by
  refine hm.inner .withObject fun f u h => ?_
  rw [withObject_eq_map] at h
  cases hr : m { s with objects := object :: s.objects } with
  | failed g v =>
    rw [hr] at h
    cases h
    exact ⟨v, rfl⟩
  | done a v => rw [hr] at h; cases h
  | exhausted => rw [hr] at h; cases h

/-- A fault that leaves a statement is its own, unless it has a place already. -/
theorem Sourced.placed {a : Attempt}
    (here : ∀ cause u, a.run s = .failed (.of cause) u →
      Q ⟨cause, some a.stmt.span⟩ Unit a.placed s)
    (ha : a.run.Sourced Q s) : a.placed.Sourced Q s := by
  intro f t h place
  rw [Attempt.placed, within_eq_map] at h
  cases hr : a.run s with
  | failed g u =>
    rw [hr] at h
    cases h
    obtain ⟨cause, span⟩ := g
    cases span with
    | none => exact ⟨Unit, _, s, here cause u hr, .self⟩
    | some inner =>
      obtain ⟨γ, r, w, source, part⟩ := ha _ _ hr rfl
      exact ⟨γ, r, w, source, .attempt part⟩
  | done b u => rw [hr] at h; cases h
  | exhausted => rw [hr] at h; cases h

theorem sourced_declare {c : FrameId} {how : State.Declaration} {name : Name} {value : Value} :
    (Run.declare c how name value).Sourced Q s := by
  refine sourced_of_bare fun f t h => ?_
  cases hfault : s.declarationFault? c how name with
  | none => cases (declare_of_free hfault).symm.trans h
  | some cause =>
    have refused : Run.declare c how name value s = .failed (.of cause) s := by
      simp only [Run.declare, Run.visiting, Run.about, through, atomic, hfault]
    cases refused.symm.trans h
    rfl

/-- A statement of some kind fails without having got the place of the fault from another one, or a
call by an evaluator below a bound fails. -/
inductive Source (p : Stmt → Prop) (bound : Nat) (f : Fault) : (β : Type) → Run β → State → Prop
  | statement {a : Attempt} {s t : State} (here : p a.stmt) (failed : a.run s = .failed (.of f.cause) t)
    (place : f.span = some a.stmt.span) : Source p bound f Unit a.placed s
  | call {below : Nat} {decl : Procedure} {home : FrameId} {cells : List CellId} {s t : State}
    (lt : below < bound) (failed : (ofBound below).runProcedure decl home cells s = .failed f t) :
    Source p bound f CellId ((ofBound below).runProcedure decl home cells) s

end Run

open Run

variable {p : Stmt → Prop} {bound : Nat} {c : FrameId} {f : Fault}

/-- A native function that leaves the places of its faults to its callers. -/
theorem Service.sourced_call {service : Service} (leaves : service.Does (·.places = false))
    {Q : Fault → (β : Type) → Run β → State → Prop} (held args : List CellId) (s : State) :
    (service.call held args).Sourced Q s := by
  have rules : Deed.Rules (·.places = false) fun s m => m.Sourced Q s :=
    { pure := fun _ => sourced_of_done rfl
      fail := fun _ => sourced_of_bare fun _ _ h => by cases h; rfl
      look := fun _ => sourced_of_done rfl
      tick := sourced_of_done rfl
      newObject := sourced_of_done rfl
      newCell := fun _ _ => sourced_of_done rfl
      write := fun _ _ => sourced_of_done rfl
      addMember := fun _ _ _ => sourced_of_done rfl
      putMember := fun _ _ _ => sourced_of_done rfl
      respond := fun _ => sourced_of_done rfl
      addLine := fun _ => sourced_of_done rfl
      failAt := fun {_ _ _ _} leaves => sourced_of_bare fun _ _ h => by
        cases h
        exact Option.not_isSome_iff_eq_none.mp (Bool.eq_false_iff.mp leaves)
      newNative := fun _ _ _ => sourced_of_done rfl
      bind := Sourced.bind }
  exact rules.has_call leaves held args

/-- Faults come from statements that are executed, or out of calls, as long as native functions leave
the places of theirs to their callers. -/
def Conduct.sourced (p : Stmt → Prop) (bound : Nat) : Conduct where
  Has _ s m := m.Advances s ∧ (s.store.Does (·.places = false) → m.Sourced (Source p bound) s)
  code := p
  evaluator ev := ∃ below < bound, ev = ofBound below
  callable := Habit.advance.Calls
  has_pure a := ⟨advances_pure a, fun _ => sourced_of_done rfl⟩
  has_fail {_ c _} cause :=
    ⟨Habit.advance.has_fail (c := c) cause, fun _ => sourced_of_bare fun _ _ h => by cases h; rfl⟩
  has_exhausted {_ c _} := ⟨Habit.advance.has_exhausted (c := c), fun _ => sourced_of_ne_failed nofun⟩
  has_look {_ c _} f := ⟨Habit.advance.has_look (c := c) f, fun _ => sourced_of_done rfl⟩
  has_newCell {c _} v := ⟨Habit.advance.has_newCell (c := c) v false, fun _ => sourced_of_done rfl⟩
  has_memberOrNew {c _} id name :=
    ⟨Habit.advance.has_memberOrNew (c := c) id name, fun _ => sourced_of_done rfl⟩
  has_write id v refused := ⟨advances_write id v refused, fun _ => sourced_of_bare fun f t h => by
    unfold Run.write atomic through at h
    dsimp only at h
    split at h
    · cases h
      rfl
    · cases h⟩
  has_resolve name := ⟨Habit.advance.has_resolve name, fun _ => sourced_of_done rfl⟩
  has_setExplicit _ := ⟨Habit.advance.has_setExplicit _, fun _ => sourced_of_done rfl⟩
  has_bind hm hnext := ⟨hm.1.bind fun a t hr => (hnext a t hr).1, fun leaves =>
    (hm.2 leaves).bind fun a t hr =>
      (hnext a t hr).2 ((hm.1.ends (by rw [hr]; rfl)).natives leaves)⟩
  has_visiting hm := ⟨hm.1.about _, fun leaves => (hm.2 leaves).about⟩
  has_within := by
    rintro c s _ stmt ⟨below, -, rfl⟩ here hm
    exact ⟨hm.1.within _, fun leaves => Sourced.placed (a := .execute below c stmt)
      (fun _ _ h => .statement here h rfl) (hm.2 leaves)⟩
  has_withObject _ hm := ⟨hm.1.withObject, fun leaves => (hm.2 leaves).withObject⟩
  callable_stored := Habit.calls_stored
  has_bind_callable {_ _ c _ _ _ _} hm hcall hnext :=
    have next {a t} (hr) := hnext a t (Habit.calls_behind (c := c) hm.1 hr hcall)
    ⟨hm.1.bind fun a t hr => (next hr).1, fun leaves => (hm.2 leaves).bind fun a t hr =>
      (next hr).2 ((hm.1.ends (by rw [hr]; rfl)).natives leaves)⟩
  has_native {c _ _ _ held} hcall args :=
    ⟨Habit.has_native (c := c) hcall args, fun leaves =>
      Service.sourced_call (hcall.mono fun _ does => does _ leaves) held args _⟩
  has_call := by
    rintro c s _ decl home cells ⟨below, lt, rfl⟩ hcall -
    exact ⟨Evaluator.has_runProcedure (c := c) (Evaluator.follows_ofBound _ below) cells hcall,
      fun _ => sourced_self fun _ _ h _ => .call lt h⟩

/-! ## Declarations -/

theorem Procedure.sourced_declare (decl : Procedure) (s : State) :
    (decl.declare c).Sourced (Source p bound) s := by
  refine Sourced.bind (sourced_of_done rfl) fun here t _ => ?_
  split
  · exact sourced_of_bare fun _ _ h => by cases h; rfl
  · exact Sourced.bind (sourced_of_done rfl) fun _ _ _ =>
      Sourced.bind Run.sourced_declare fun _ _ _ => sourced_of_done rfl

mutual

theorem Stmt.sourced_declare :
    ∀ {stmt : Stmt}, Stmt.Throughout p [stmt] → ∀ s, (stmt.declare c).Sourced (Source p bound) s
  | .dim .., _, _ | .const .., _, _ =>
    Sourced.bind Run.sourced_declare fun _ _ _ => sourced_of_done rfl
  | .procedure _ decl, _, s => decl.sourced_declare s
  | .block .., h, s | .loop .., h, s | .count .., h, s | .forEach .., h, s | .withObject .., h, s
  | .property _ _ (.mk ..) _, h, s | .includeFile _ _ (some _), h, s =>
    Stmt.sourced_declareBody (h.inside List.mem_cons_self) s
  | .branch .., h, s =>
    Sourced.bind (Stmt.sourced_declareBody (h.inside List.mem_cons_self) s) fun _ t _ =>
      Stmt.sourced_declareBody (h.inside (List.mem_cons_of_mem _ List.mem_cons_self)) t
  | .select .., h, s =>
    Stmt.sourced_declareCases (fun _ hcase => h.inside (List.mem_map_of_mem hcase)) s
  | .assign .., _, _ | .call .., _, _ | .redim .., _, _ | .classDecl .., _, _ | .exit .., _, _
  | .onError .., _, _ | .optionExplicit .., _, _ | .includeFile _ _ none, _, _ =>
    sourced_of_done rfl

theorem Stmt.sourced_declareBody :
    ∀ {body : List Stmt}, Stmt.Throughout p body →
      ∀ s, (Stmt.declareBody c body).Sourced (Source p bound) s
  | [], _, _ => sourced_of_done rfl
  | stmt :: _, h, s =>
    have ⟨first, further⟩ := Stmt.throughout_cons h
    Sourced.bind
      (Sourced.placed (a := .declare c stmt) (fun _ _ h => .statement first.here h rfl)
        (Stmt.sourced_declare first s))
      fun _ t _ => Stmt.sourced_declareBody further t

theorem Stmt.sourced_declareCases :
    ∀ {cases : List Case}, (∀ case ∈ cases, Stmt.Throughout p case.body) →
      ∀ s, (Stmt.declareCases c cases).Sourced (Source p bound) s
  | [], _, _ => sourced_of_done rfl
  | .mk _ _ :: _, h, s =>
    have ⟨first, further⟩ := List.forall_mem_cons.mp h
    Sourced.bind (Stmt.sourced_declareBody first s) fun _ t _ =>
      Stmt.sourced_declareCases further t

end

/-! ## The innermost statement -/

/-- A statement fails in a run and gives a fault its place; none of what was run on its behalf had
failed.  It is one of some statements, or inside them, or else it is in the body of a procedure that
was called on the way. -/
structure Run.Innermost (body : List Stmt) (f : Fault) (m : Run Unit) (s : State) (a : Attempt)
    (t : State) : Prop where
  part : a.placed.IsPart t m s
  failed : ∃ u, a.run t = .failed (.of f.cause) u
  place : f.span = some a.stmt.span
  first : ∀ (b : Attempt) (u : State), b.placed.IsPart u a.run t → ∀ g v, b.run u ≠ .failed g v
  origin : Stmt.Under body a.stmt ∨
    ∃ (k : Nat) (decl : Procedure) (home : FrameId) (cells : List CellId) (u : State),
      ((ofBound k).runProcedure decl home cells).IsPart u m s ∧
        a.placed.IsPart t ((ofBound k).runProcedure decl home cells) u ∧ Stmt.Under decl.body a.stmt

namespace Run.Innermost

variable {m n : Run Unit} {body : List Stmt} {s t u w : State} {a : Attempt}

/-- It is so in each run that the run is part of. -/
theorem within (h : m.Innermost body f s a t) (part : m.IsPart s n u) :
    n.Innermost body f u a t where
  part := h.part.trans part
  failed := h.failed
  place := h.place
  first := h.first
  origin := h.origin.imp id fun ⟨k, decl, home, cells, v, call, rest⟩ =>
    ⟨k, decl, home, cells, v, call.trans part, rest⟩

/-- Seen from outside a call, a statement of the body of the procedure is one of a called
procedure. -/
theorem outside {k : Nat} {decl : Procedure} {home : FrameId} {cells : List CellId}
    (h : m.Innermost decl.body f s a t)
    (inside : m.IsPart s ((ofBound k).runProcedure decl home cells) u)
    (part : ((ofBound k).runProcedure decl home cells).IsPart u n w) :
    n.Innermost body f w a t :=
  have whole := h.within (inside.trans part)
  { whole with
    origin := .inr (whole.origin.elim
      (fun under => ⟨k, decl, home, cells, u, part, h.part.trans inside, under⟩) id) }

end Run.Innermost

/-- What is run of the body of a procedure by a call. -/
inductive Procedure.Life (ev : Evaluator) (decl : Procedure) (f : Fault) :
    (β : Type) → Run β → State → Prop
  | declared {frame : FrameId} {s t : State}
    (failed : Stmt.declareBody frame decl.body s = .failed f t) :
    Life ev decl f Unit (Stmt.declareBody frame decl.body) s
  | executed {frame : FrameId} {s t : State}
    (failed : ev.executeBody frame decl.body s = .failed f t) :
    Life ev decl f Unit (ev.executeBody frame decl.body) s

namespace Evaluator

variable {ev : Evaluator} {decl : Procedure} {home : FrameId} {cells : List CellId}
  {body : List Stmt} {s t : State}

/-- A fault with a place comes out of the body of the procedure that is called. -/
theorem sourced_runProcedure : (ev.runProcedure decl home cells).Sourced (decl.Life ev) s := by
  intro f t h place
  have room : s.isFull = false := by
    refine Bool.eq_false_iff.mpr fun full => ?_
    cases (runProcedure_of_isFull full).symm.trans h
    cases place
  refine Sourced.inner .withoutObjects (fun _ _ => failed_of_withoutObjects_failed)
    (Sourced.about (Sourced.inner (.inCall room) (fun _ _ => failed_of_inCall_failed room) ?_))
    f t h place
  refine Sourced.bind (sourced_of_done rfl) fun _ _ _ => ?_
  refine Sourced.bind Run.sourced_declare fun _ _ _ => ?_
  refine Sourced.bind (sourced_of_done rfl) fun _ _ _ => ?_
  refine Sourced.bind (sourced_self fun _ _ h _ => .declared h) fun _ _ _ => ?_
  exact Sourced.bind (sourced_self fun _ _ h _ => .executed h) fun _ _ _ =>
    sourced_of_done rfl

theorem sourced_executeBody : ∀ {body : List Stmt}, Stmt.Throughout p body → ∀ s : State,
    s.store.Does (·.places = false) → ((ofBound bound).executeBody c body).Sourced (Source p bound) s
  | [], _, _, _ => sourced_of_done rfl
  | stmt :: _, h, s, leaves =>
    have ⟨first, further⟩ := Stmt.throughout_cons h
    have ⟨advances, executed⟩ :=
      obeys_execute_ofBound (U := .sourced p bound) (fun k hk => ⟨k, hk, rfl⟩) first s
    Sourced.bind
      (Sourced.placed (a := .execute bound c stmt) (fun _ _ h => .statement first.here h rfl)
        (executed leaves))
      fun _ t hr => sourced_executeBody further t
        (((advances.within _).ends (by rw [hr]; rfl)).natives leaves)

theorem exists_innermost_declareBody (h : Stmt.declareBody c body s = .failed f t) :
    ∃ a u, (Stmt.declareBody c body).Innermost body f s a u := by
  have sourced : (Stmt.declareBody c body).Sourced (Source (Stmt.Under body) 0) s :=
    Stmt.sourced_declareBody (fun _ under => under) s
  obtain ⟨_, _, _, source, part⟩ := sourced f t h (Stmt.span_of_declareBody_failed h)
  cases source with
  | statement here failed place =>
    exact ⟨_, _, part, ⟨_, failed⟩, place, fun _ _ inner _ _ => inner.ne_failed failed, .inl here⟩
  | call lt _ => exact absurd lt (Nat.not_lt_zero _)

/-- By induction on the bound: what fails in a call is executed by an evaluator below. -/
theorem exists_innermost_executeBody (leaves : s.store.Does (·.places = false))
    (h : (ofBound bound).executeBody c body s = .failed f t) :
    ∃ a u, ((ofBound bound).executeBody c body).Innermost body f s a u := by
  induction bound using Nat.strongRecOn generalizing c body s t with
  | ind bound ih =>
    have place := span_of_executeBody_failed h
    obtain ⟨_, _, u, source, part⟩ := sourced_executeBody (p := Stmt.Under body)
      (fun _ under => under) s leaves f t h place
    cases source with
    | statement here failed place =>
      exact ⟨_, _, part, ⟨_, failed⟩, place, fun _ _ inner _ _ => inner.ne_failed failed, .inl here⟩
    | @call below decl home cells _ _ lt failed =>
      obtain ⟨_, _, _, life, inside⟩ := sourced_runProcedure f _ failed place
      have called : u.store.Does (·.places = false) :=
        part.does (follows_executeBody (follows_ofBound Habit.advance bound) body s) leaves
      have runs : ((ofBound below).runProcedure decl home cells).Advances u :=
        has_runProcedure (c := c) (follows_ofBound Habit.advance below) cells trivial
      cases life with
      | declared failed =>
        obtain ⟨a, u, innermost⟩ := exists_innermost_declareBody failed
        exact ⟨a, u, innermost.outside inside part⟩
      | executed failed =>
        obtain ⟨a, u, innermost⟩ := ih _ lt (inside.does runs called) failed
        exact ⟨a, u, innermost.outside inside part⟩

end Evaluator

/-! ## Refused calls -/

namespace Run

/-- A call that is refused before the body of a procedure starts, and the cause: as many calls as
allowed are running, the number of arguments is wrong, or what is called is no function. -/
inductive Refused : Run CellId → State → Fault.Cause → Prop
  | depth {k : Nat} {decl : Procedure} {home : FrameId} {cells : List CellId} {s : State}
    (full : s.isFull = true) :
    Refused ((ofBound k).runProcedure decl home cells) s (.stackOverflow s.limit)
  | arity {k : Nat} {c : FrameId} {decl : Procedure} {home : FrameId} {args : List Arg} {s : State}
    (differs : args.length ≠ decl.params.length) :
    Refused ((ofBound k).call c (.script decl home) args) s
      (.arity decl.name.text decl.params.length args.length)
  | callee {k : Nat} {c : FrameId} {callee : Expr} {args : List Arg} {s t : State} {value : Value}
    (called : (ofBound k).calledValue c callee s = .done value t)
    (none : Evaluator.callable? t value = none) :
    Refused ((ofBound k).applyCall c callee args) s
      (.typeMismatch ("'" ++ callee.display ++ "' is not a function") value.kind)

theorem Refused.failed {r : Run CellId} {s : State} {cause : Fault.Cause} (h : Refused r s cause) :
    ∃ t, r s = .failed (.of cause) t := by
  cases h with
  | depth full => exact ⟨s, Evaluator.runProcedure_of_isFull full⟩
  | arity differs =>
    refine ⟨s, ?_⟩
    rw [Evaluator.call]
    exact congrFun (congrArg Run.run (if_pos differs)) s
  | @callee _ _ _ _ _ t _ called none =>
    refine ⟨t, ?_⟩
    rw [Evaluator.applyCall, bind_of_done called, bind_of_done rfl]
    simp only [none]
    rfl

/-- The faults of a run of statements are attributed to statements. -/
structure Attributes (body : List Stmt) (m : Run Unit) (s : State) : Prop where
  /-- A fault carries the place of the innermost statement that failed. -/
  innermost : ∀ f t, m s = .failed f t → ∃ a u, m.Innermost body f s a u
  /-- Whatever statement fails on the way, the fault that leaves it comes out as it is. -/
  kept : ∀ f t, m s = .failed f t → ∀ (a : Attempt) (u : State), a.placed.IsPart u m s →
    ∀ g v, a.run u = .failed g v → g.leaving a.stmt.span = f
  /-- A call that is refused on the way is a failure of the statement that makes it: there is no
  statement between that one and the call. -/
  refused : ∀ r u cause, Refused r u cause → r.IsPart u m s → ∃ (a : Attempt) (v w t : State),
    a.placed.IsPart v m s ∧ r.IsPart u a.run v ∧
      (∀ (b : Attempt) (w : State), b.placed.IsPart w a.run v → ¬ r.IsPart u b.run w) ∧
        a.run v = .failed (.of cause) w ∧ m s = .failed ⟨cause, some a.stmt.span⟩ t

variable {body : List Stmt} {m : Run Unit} {s : State}

/-- The last two parts hold whatever is run, as long as its faults have places. -/
theorem attributes_of_innermost
    (innermost : ∀ f t, m s = .failed f t → ∃ a u, m.Innermost body f s a u) :
    m.Attributes body s where
  innermost := innermost
  kept f t h a u part g v hg := by
    obtain ⟨w, hw⟩ := part.failed (Attempt.placed_of_failed hg) (g.span_leaving _)
    exact (Outcome.failed.inj (hw.symm.trans h)).1
  refused r u cause hr part := by
    obtain ⟨t, ht⟩ := hr.failed
    obtain ⟨v, hv⟩ | ⟨a, v, w, whole, within, ha⟩ := part.attributed ht
    · obtain ⟨_, _, bare⟩ := innermost _ _ hv
      nomatch bare.place
    · obtain ⟨t', hm⟩ := whole.failed (Attempt.placed_of_failed ha) rfl
      refine ⟨a, v, w, t', whole, within, fun b x between inside => ?_, ha, hm⟩
      -- a statement between the two would have failed before
      obtain ⟨y, hb⟩ | ⟨d, y, z, deeper, -, hd⟩ := inside.attributed ht
      · exact between.ne_failed ha hb
      · exact (deeper.trans (.attempt .self) |>.trans between).ne_failed ha hd

end Run

namespace Evaluator

/-- **A fault carries the place of the innermost statement that failed**, whatever statements are
declared, executed, or both, in whatever frame and from whatever state in which native functions leave
the places of their faults to their callers. -/
theorem attributes_ofBound (bound : Nat) (c : FrameId) (body : List Stmt) (s : State)
    (leaves : s.store.Does (·.places = false)) :
    (Stmt.declareBody c body).Attributes body s ∧
      ((ofBound bound).executeBody c body).Attributes body s ∧
        ((ofBound bound).runBody c body).Attributes body s := by
  refine ⟨attributes_of_innermost fun _ _ => exists_innermost_declareBody,
    attributes_of_innermost fun _ _ => exists_innermost_executeBody leaves,
    attributes_of_innermost fun f t h => ?_⟩
  obtain ⟨_, u, hr, h'⟩ | ⟨g, u, hr, h'⟩ | h' :=
    bind_cases (Stmt.declareBody c body) (fun _ => (ofBound bound).executeBody c body) s
  · have declared : (Stmt.declareBody c body).Advances s :=
      Stmt.follows_declareBody (H := Habit.advance) body s
    have leaves' := (declared.ends (by rw [hr]; rfl)).natives leaves
    obtain ⟨a, v, innermost⟩ := exists_innermost_executeBody leaves' (h'.symm.trans h)
    have second (next : Unit → Run Unit) :
        (next ()).Inner u (Stmt.declareBody c body >>= next) s := .next hr
    exact ⟨a, v, innermost.within (second fun _ => (ofBound bound).executeBody c body).isPart⟩
  · cases h'.symm.trans h
    obtain ⟨a, v, innermost⟩ := exists_innermost_declareBody hr
    exact ⟨a, v, innermost.within Inner.first.isPart⟩
  · cases h'.symm.trans h

/-- A native function refuses a call in the body of a procedure: the fault has the place of the
statement that makes it, not that of the statement that calls the procedure. -/
theorem attributes_ofBound_native :
    let header : Expr := .member default (.var default (Name.ofString "r")) (Name.ofString "AddHeader")
    let inside : Stmt := .call ⟨10, 20⟩ (.call default header [])
    let outside : Stmt := .call ⟨30, 40⟩ (.call default (.var default (Name.ofString "f")) [])
    let body : List Stmt :=
      [.procedure ⟨0, 25⟩ (.mk (Name.ofString "f") .sub [] [inside] .isPublic), outside]
    let world : World := { World.new .empty with store := (Host.standard .empty).2 }
    let s := ((State.start world 8).pushRoot.2.define ⟨0⟩ .unique (Name.ofString "r") (.object ⟨0⟩)).2
    s.store.Does (·.places = false) ∧
      ((ofBound 20).runBody ⟨0⟩ body s).fault? =
        some ⟨.arity "Response.AddHeader" 2 0, some ⟨10, 20⟩⟩ ∧
      ∃ a u, ((ofBound 20).runBody ⟨0⟩ body).Innermost body
        ⟨.arity "Response.AddHeader" 2 0, some ⟨10, 20⟩⟩ s a u ∧ a.stmt.span = ⟨10, 20⟩ := by
  intro header inside outside body world s
  have leaves : s.store.Does (·.places = false) :=
    (Host.modest_standard (Store.does_empty _)).mono fun _ => Deed.IsModest.places
  have fault : ((ofBound 20).runBody ⟨0⟩ body s).fault? =
      some ⟨.arity "Response.AddHeader" 2 0, some ⟨10, 20⟩⟩ := by decide +kernel
  obtain ⟨-, -, attributes⟩ := attributes_ofBound 20 ⟨0⟩ body s leaves
  obtain ⟨t, failed⟩ := Outcome.eq_failed_of_fault? fault
  obtain ⟨a, u, innermost⟩ := attributes.innermost _ t failed
  exact ⟨leaves, fault, a, u, innermost, (Option.some.inj innermost.place).symm⟩

end Evaluator

end PageScript
