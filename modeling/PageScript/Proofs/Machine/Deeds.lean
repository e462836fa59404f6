import PageScript.Machine.Native
import PageScript.Proofs.Machine.Meets

/-!
# Proofs/Machine/Deeds — what native functions do

A routine is a tree of deeds, so a property of all its deeds is one of the tree: `Routine.Does` goes
through what a routine does next, whatever it is told, and through the native functions that it makes.
Natives come from natives: what all natives of a store do, those that they make do as well.

`Deed.Rules` says what a property of runs has to hold of, so that it holds of the calls of all native
functions whose deeds are allowed (`Deed.Rules.has_call`).
-/

namespace PageScript

/-! ## All deeds -/

/-- All deeds of a routine, and of the native functions that it makes, have a property. -/
inductive Routine.Does (p : Deed → Prop) : Routine → Prop
  | answer {cell : Nat} : Does p (.answer cell)
  | act {deed : Deed} {next : deed.Reply → Routine} (here : p deed)
    (later : ∀ reply, (next reply).Does p) : Does p (.act deed next)
  | native {name : Name} {service : Nat → Routine} {next : Routine} (made : ∀ n, (service n).Does p)
    (later : next.Does p) : Does p (.native name service next)

/-- All deeds of a native function have a property. -/
def Service.Does (p : Deed → Prop) (service : Service) : Prop := ∀ n, (service.routine n).Does p

/-- All deeds of a function have a property, if it is a native one. -/
def Callable.Does (p : Deed → Prop) : Callable → Prop
  | native _ service _ => service.Does p
  | script .. => True

/-- All deeds of the native functions of a store have a property. -/
def Store.Does (p : Deed → Prop) (s : Store) : Prop := ∀ id f, s.function? id = some f → f.Does p

/-- Whether an entry of an object may be replaced. -/
def Deed.replaces : Deed → Bool
  | putMember .. => true
  | _ => false

/-- Whether a fault gets a place that is not the statement that makes the call. -/
def Deed.places : Deed → Bool
  | fail _ place => place.isSome
  | _ => false

variable {p q : Deed → Prop}

theorem Routine.Does.mono (h : ∀ deed, p deed → q deed) {routine : Routine} (does : routine.Does p) :
    routine.Does q := by
  induction does with
  | answer => exact .answer
  | act here _ ih => exact .act (h _ here) ih
  | native _ _ ihService ihNext => exact .native ihService ihNext

theorem Service.Does.mono (h : ∀ deed, p deed → q deed) {service : Service} (does : service.Does p) :
    service.Does q :=
  fun n => (does n).mono h

theorem Routine.does_of_forall (h : ∀ deed, p deed) : ∀ routine : Routine, routine.Does p
  | .answer _ => .answer
  | .act deed next => .act (h deed) fun reply => does_of_forall h (next reply)
  | .native _ service next => .native (fun n => does_of_forall h (service n)) (does_of_forall h next)

theorem Service.does_of_forall (h : ∀ deed, p deed) (service : Service) : service.Does p :=
  fun n => Routine.does_of_forall h (service.routine n)

theorem Callable.does_of_forall (h : ∀ deed, p deed) : ∀ f : Callable, f.Does p
  | .native _ service _ => service.does_of_forall h
  | .script .. => trivial

theorem Callable.does_true (f : Callable) : f.Does fun _ => True :=
  f.does_of_forall fun _ => trivial

/-- Deeds that have many properties have them all at once. -/
theorem Routine.does_all {C : (Deed → Prop) → Prop} {routine : Routine} (one : ∃ p, C p)
    (h : ∀ p, C p → routine.Does p) : routine.Does fun deed => ∀ p, C p → p deed := by
  obtain ⟨p, hp⟩ := one
  have first := h p hp
  induction first with
  | answer => exact .answer
  | act _ _ ih =>
    refine .act (fun q hq => ?_) fun reply => ih reply fun q hq => ?_
    · cases h q hq with
      | act here => exact here
    · cases h q hq with
      | act _ later => exact later reply
  | native _ _ ihService ihNext =>
    refine .native (fun n => ihService n fun q hq => ?_) (ihNext fun q hq => ?_)
    · cases h q hq with
      | native made => exact made n
    · cases h q hq with
      | native _ later => exact later

/-! ## Calls of native functions -/

/-- A property of runs from a state on that every allowed deed has and that is handed on from one run
to the next. -/
structure Deed.Rules (allow : Deed → Prop) (Has : {α : Type} → State → Run α → Prop) : Prop where
  pure : ∀ {α : Type} {s} (a : α), Has s (pure a : Run α)
  fail : ∀ {α : Type} {s} cause, Has s (Run.fail cause : Run α)
  look : ∀ {α : Type} {s} (f : State → α), Has s (Run.look f)
  tick : ∀ {s}, Has s (Run.step State.tick)
  newObject : ∀ {s}, Has s (Run.step (·.newObject))
  newCell : ∀ {s} v readonly, Has s (Run.step (·.newCell v readonly))
  write : ∀ {s} id v, Has s (Run.step (·.write id v))
  addMember : ∀ {s} id name cell, Has s (Run.step (·.addMember id name cell))
  putMember : ∀ {s object name register}, allow (.putMember object name register) → ∀ id cell,
    Has s (Run.change (·.putMember id name cell))
  respond : ∀ {s} f, Has s (Run.change (·.mapResponse f))
  addLine : ∀ {s} line, Has s (Run.change (·.addLine line))
  failAt : ∀ {α : Type} {s refusal place}, allow (.fail refusal place) →
    Has s (Run.failAt refusal.cause place : Run α)
  newNative : ∀ {s service}, service.Does allow → ∀ name held,
    Has s (Run.newNative name service held)
  bind : ∀ {α β : Type} {s} {m : Run α} {next : α → Run β}, Has s m →
    (∀ a t, m s = .done a t → Has t (next a)) → Has s (m >>= next)

namespace Deed.Rules

variable {allow : Deed → Prop} {Has : {α : Type} → State → Run α → Prop} (h : Rules allow Has)
  {α β : Type} {s : State}

include h

theorem andThen {m : Run α} {next : α → Run β} (hm : Has s m) (hnext : ∀ a t, Has t (next a)) :
    Has s (m >>= next) :=
  h.bind hm fun a t _ => hnext a t

theorem required (found : Option α) : Has s (Run.required found) := by
  cases found with
  | some a => exact h.pure a
  | none => exact h.fail _

theorem has_perform {deed : Deed} (allowed : allow deed) (r : Registers) : Has s (deed.perform r) := by
  cases deed with
  | read => exact h.andThen (h.required _) fun _ _ => h.andThen (h.look _) fun _ _ => h.pure _
  | isReadonly => exact h.andThen (h.required _) fun _ _ => h.andThen (h.look _) fun _ _ => h.pure _
  | isSameCell => exact h.andThen (h.required _) fun _ _ => h.andThen (h.required _) fun _ _ => h.pure _
  | isSameValue => exact h.andThen (h.required _) fun _ _ => h.andThen (h.required _) fun _ _ => h.pure _
  | functionName => exact h.andThen (h.required _) fun _ _ => h.andThen (h.look _) fun _ _ => h.pure _
  | memberNames => exact h.andThen (h.required _) fun _ _ => h.andThen (h.look _) fun _ _ => h.pure _
  | member =>
    refine h.andThen (h.required _) fun _ _ => h.andThen (h.look _) fun found _ => ?_
    cases found <;> exact h.pure _
  | parameter => exact h.andThen (h.look _) fun _ _ => h.pure _
  | clock => exact h.andThen h.tick fun _ _ => h.pure _
  | literal => exact h.pure _
  | newObject => exact h.andThen h.newObject fun _ _ => h.pure _
  | newCell => exact h.andThen (h.required _) fun _ _ => h.andThen (h.newCell _ _) fun _ _ => h.pure _
  | write =>
    exact h.andThen (h.required _) fun _ _ => h.andThen (h.required _) fun _ _ =>
      h.andThen (h.write _ _) fun _ _ => h.pure _
  | addMember =>
    exact h.andThen (h.required _) fun _ _ => h.andThen (h.required _) fun _ _ =>
      h.andThen (h.addMember _ _ _) fun _ _ => h.pure _
  | putMember =>
    exact h.andThen (h.required _) fun _ _ => h.andThen (h.required _) fun _ _ =>
      h.andThen (h.putMember allowed _ _) fun _ _ => h.pure _
  | respond => exact h.andThen (h.respond _) fun _ _ => h.pure _
  | addHeader => exact h.andThen (h.respond _) fun _ _ => h.pure _
  | log => exact h.andThen (h.addLine _) fun _ _ => h.pure _
  | fail => exact h.failAt allowed

/-- By induction on the routine. -/
theorem has_run {routine : Routine} (does : routine.Does allow) (r : Registers) :
    Has s (routine.run r) := by
  induction does generalizing s r with
  | answer => exact h.required _
  | act here _ ih => exact h.andThen (h.has_perform here r) fun _ _ => ih _ _
  | native made _ _ ih => exact h.andThen (h.newNative made _ _) fun _ _ => ih _

/-- **Calls of native functions have a property that all their deeds have.** -/
theorem has_call {service : Service} (does : service.Does allow) (held args : List CellId) :
    Has s (service.call held args) :=
  h.has_run (does _) _

end Deed.Rules

/-! ## Texts -/

theorem Value.toText_sight (v : Value) : v.sight.toText = v.toText := by
  cases v <;> rfl

/-- A routine goes on with the text of the value in a cell. -/
theorem Routine.run_withText {r : Registers} {register : Nat} {cell : CellId} {s : State}
    {text : String} {next : String → Routine} (here : r.cells[register]? = some cell)
    (written : (s.store.read cell).toText = .ok text) :
    (withText register next).run r s = (next text).run (r.withValue (s.store.read cell)) s := by
  have told : (Deed.read register).perform r s =
      .done ((s.store.read cell).sight, r.withValue (s.store.read cell)) s := by
    refine (Run.bind_of_done (a := cell) (t := s) ?_).trans rfl
    exact congrArg (fun found => Run.required found s) here
  refine (Run.bind_of_done told).trans ?_
  dsimp only
  split
  · rename_i text' h
    cases (Value.toText_sight _).symm.trans h |>.symm.trans written
    rfl
  · rename_i h
    cases (Value.toText_sight _).symm.trans h |>.symm.trans written

/-- A text is written to the response, and the result is a new cell. -/
theorem Service.call_write {s : State} {cell : CellId} {text : String} (held : List CellId)
    (written : (s.store.read cell).toText = .ok text) : Service.call .write held [cell] s =
      .done ((s.mapResponse (·.write text)).newCell .empty false).1
        ((s.mapResponse (·.write text)).newCell .empty false).2 :=
  Routine.run_withText rfl written

end PageScript
