import PageScript.Proofs.Machine.Conduct
import PageScript.Proofs.Machine.Deeds

/-!
# Proofs/Machine/Habit — what holds of all code by the way in which runs are built

A `Habit` is a conduct of all code that speaks of declarations as well: it is a property of runs in a
frame, from a state on, that every single step of the machine has and that is handed on wherever the
machine puts runs together.  All code follows every habit, at every bound
(`Evaluator.follows_ofBound`).
-/

namespace PageScript

/-- A property of runs in a frame, from a state on, that single steps have and that the ways to build
runs hand on. -/
structure Habit where
  Has : {α : Type} → FrameId → State → Run α → Prop
  /-- The procedures of which calls have the property. -/
  callable : State → Procedure → FrameId → Prop
  /-- What native functions may do in their calls. -/
  natives : State → Deed → Prop
  has_pure : ∀ {α : Type} {c s} (a : α), Has c s (pure a : Run α)
  has_fail : ∀ {α : Type} {c s} cause, Has c s (Run.fail cause : Run α)
  has_exhausted : ∀ {α : Type} {c s}, Has c s (Run.exhausted : Run α)
  has_look : ∀ {α : Type} {c s} (f : State → α), Has c s (Run.look f)
  has_newCell : ∀ {c s} v readonly, Has c s (Run.step (·.newCell v readonly))
  has_newObject : ∀ {c s}, Has c s (Run.step (·.newObject))
  has_memberOrNew : ∀ {c s} id name, Has c s (Run.step (·.memberOrNew id name))
  has_write : ∀ {c s} id v refused, Has c s (Run.write id v refused)
  has_accept : ∀ {c s} id v, Has c s (Run.step (·.write id v))
  has_addMember : ∀ {c s} id name cell, Has c s (Run.step (·.addMember id name cell))
  has_putMember : ∀ {c s object name register}, natives s (.putMember object name register) →
    ∀ id cell, Has c s (Run.change (·.putMember id name cell))
  has_newNative : ∀ {c s service}, service.Does (natives s) → ∀ name held,
    Has c s (Run.newNative name service held)
  has_failAt : ∀ {α : Type} {c s} cause place, Has c s (Run.failAt cause place : Run α)
  has_tick : ∀ {c s}, Has c s (Run.step State.tick)
  has_respond : ∀ {c s} f, Has c s (Run.change (·.mapResponse f))
  has_addLine : ∀ {c s} line, Has c s (Run.change (·.addLine line))
  has_resolve : ∀ {c s} name, Has c s (Run.step (·.resolve c name true))
  has_declare : ∀ {c s how} name v, how ≠ .replacing → Has c s (Run.declare c how name v)
  has_newFunction : ∀ {c s decl}, (s.frames.get c).procedure = none →
    Has c s (Run.step (·.newFunction (.script decl c)))
  has_setExplicit : ∀ {c s} on, Has c s (Run.change (·.mapFrames (·.setExplicit c on)))
  has_bind : ∀ {α β : Type} {c s} {m : Run α} {next : α → Run β}, Has c s m →
    (∀ a t, m s = .done a t → Has c t (next a)) → Has c s (m >>= next)
  has_visiting : ∀ {α : Type} {c s} {m : FrameId → Run α}, Has c s (m c) →
    Has c s (Run.visiting c m)
  has_within : ∀ {α : Type} {c s} {m : Run α} place, Has c s m → Has c s (Run.within place m)
  has_withObject : ∀ {α : Type} {c s} {m : Run α} object,
    Has c { s with objects := object :: s.objects } m → Has c s (Run.withObject object m)
  callable_stored : ∀ {s id decl home}, s.store.function? id = some (.script decl home) →
    callable s decl home
  callable_behind : ∀ {α : Type} {c s t decl home} {m : Run α} {a}, Has c s m → m s = .done a t →
    callable s decl home → callable t decl home
  natives_stored : ∀ {s : State} {id f}, s.store.function? id = some f → f.Does (natives s)
  natives_behind : ∀ {α : Type} {c s t deed} {m : Run α} {a}, Has c s m → m s = .done a t →
    natives s deed → natives t deed
  /-- A call has the property if what is run in its frame has it. -/
  has_call : ∀ {c s ev decl home args}, callable s decl home →
    (∀ frame (result : CellId) t, Has frame t (do
      Stmt.declareBody frame decl.body
      Evaluator.executeBody ev frame decl.body
      pure result)) →
    Has c s (ev.runProcedure decl home args)

namespace Habit

variable {H : Habit} {α β : Type} {c : FrameId} {s : State}

/-- A run in a frame has the property from every state on. -/
def Follows (H : Habit) (c : FrameId) (m : Run α) : Prop := ∀ s, H.Has c s m

/-! ## Runs built by the rules -/

theorem Follows.bind {m : Run α} {next : α → Run β} (hm : H.Follows c m)
    (hnext : ∀ a, H.Follows c (next a)) : H.Follows c (m >>= next) :=
  fun s => H.has_bind (hm s) fun a t _ => hnext a t

/-- Behind a look at the frame, the run goes on from the same state. -/
theorem has_visiting_look_bind {f : FrameId → State → α} {next : α → Run β}
    (hnext : H.Has c s (next (f c s))) :
    H.Has c s (Run.visiting c (fun c => Run.look (f c)) >>= next) :=
  H.has_bind (H.has_visiting (H.has_look _)) fun _ _ hr => by
    cases hr
    exact hnext

theorem follows_pure (a : α) : H.Follows c (pure a : Run α) := fun _ => H.has_pure a

theorem follows_fail (cause : Fault.Cause) : H.Follows c (Run.fail cause : Run α) :=
  fun _ => H.has_fail cause

theorem Follows.within {m : Run α} (hm : H.Follows c m) (place : Span) :
    H.Follows c (Run.within place m) :=
  fun s => H.has_within place (hm s)

theorem follows_declare {how : State.Declaration} (hhow : how ≠ .replacing) (name : Name)
    (value : Value) : H.Follows c (Run.declare c how name value) :=
  fun _ => H.has_declare name value hhow

end Habit

variable {H : Habit} {c : FrameId} {s : State}

open Habit

/-! ## Declarations -/

/-- A procedure is declared only in a frame that runs none, so the step that makes the function is
one of the habit. -/
theorem Procedure.follows_declare (decl : Procedure) : H.Follows c (decl.declare c) := fun s => by
  refine has_visiting_look_bind ?_
  split
  · exact follows_fail _ s
  · rename_i h
    have none : (s.frames.get c).procedure = none := Option.not_isSome_iff_eq_none.mp h
    exact H.has_bind (H.has_newFunction none) fun _ t _ =>
      (Habit.follows_declare (by decide) _ _).bind (fun _ => follows_pure _) t

mutual

theorem Stmt.follows_declare : ∀ stmt : Stmt, H.Follows c (stmt.declare c)
  | .dim .. => (Habit.follows_declare (by decide) _ _).bind fun _ => follows_pure _
  | .const .. => (Habit.follows_declare (by decide) _ _).bind fun _ => follows_pure _
  | .procedure _ decl => decl.follows_declare
  | .block _ body | .loop _ _ body _ _ | .count _ _ _ _ _ body | .forEach _ _ _ body
  | .withObject _ _ body | .property _ _ (.mk _ _ _ body _) _ | .includeFile _ _ (some body) =>
    Stmt.follows_declareBody body
  | .branch _ _ thenBody elseBody =>
    (Stmt.follows_declareBody thenBody).bind fun _ => Stmt.follows_declareBody elseBody
  | .select _ _ cases => Stmt.follows_declareCases cases
  | .assign .. | .call .. | .redim .. | .classDecl .. | .exit .. | .onError .. | .optionExplicit ..
  | .includeFile _ _ none => follows_pure ()

theorem Stmt.follows_declareBody : ∀ body : List Stmt, H.Follows c (Stmt.declareBody c body)
  | [] => follows_pure ()
  | stmt :: rest => (stmt.follows_declare.within _).bind fun _ => Stmt.follows_declareBody rest

theorem Stmt.follows_declareCases : ∀ cases : List Case, H.Follows c (Stmt.declareCases c cases)
  | [] => follows_pure ()
  | .mk _ body :: rest =>
    (Stmt.follows_declareBody body).bind fun _ => Stmt.follows_declareCases rest

end

/-! ## Native functions -/

namespace Habit

/-- The functions of which calls have the property. -/
def Calls (H : Habit) (s : State) : Callable → Prop
  | .native _ service _ => service.Does (H.natives s)
  | .script decl home => H.callable s decl home

/-- What native functions may do at a state they may do as long as nothing has come of the state that
forbids it. -/
theorem rules (H : Habit) (c : FrameId) (s₀ : State) : Deed.Rules (H.natives s₀)
    fun s m => (∀ deed, H.natives s₀ deed → H.natives s deed) → H.Has c s m where
  pure a _ := H.has_pure a
  fail cause _ := H.has_fail cause
  look f _ := H.has_look f
  tick _ := H.has_tick
  newObject _ := H.has_newObject
  newCell v readonly _ := H.has_newCell v readonly
  write id v _ := H.has_accept id v
  addMember id name cell _ := H.has_addMember id name cell
  putMember allowed id cell still := H.has_putMember (still _ allowed) id cell
  respond f _ := H.has_respond f
  addLine line _ := H.has_addLine line
  failAt {_ _ refusal place} _ _ := H.has_failAt refusal.cause place
  newNative does name held still := H.has_newNative (does.mono still) name held
  bind hm hnext still := H.has_bind (hm still) fun a t hr =>
    hnext a t hr fun _ allowed => H.natives_behind (hm still) hr (still _ allowed)

theorem has_native {name : Name} {service : Service} {held : List CellId}
    (calls : H.Calls s (.native name service held)) (args : List CellId) :
    H.Has c s (service.call held args) :=
  (H.rules c s).has_call calls held args fun _ => id

theorem calls_of_forall (procedures : ∀ decl home, H.callable s decl home)
    (deeds : ∀ deed, H.natives s deed) : ∀ f, H.Calls s f
  | .native _ service _ => service.does_of_forall deeds
  | .script decl home => procedures decl home

theorem calls_stored {id : FunctionId} {f : Callable} (stored : s.store.function? id = some f) :
    H.Calls s f := by
  cases f with
  | native => exact H.natives_stored stored
  | script => exact H.callable_stored stored

theorem calls_behind {f : Callable} {m : Run α} {a : α} {t : State} (hm : H.Has c s m)
    (hr : m s = .done a t) (calls : H.Calls s f) : H.Calls t f := by
  cases f with
  | native => exact calls.mono fun _ => H.natives_behind hm hr
  | script => exact H.callable_behind hm hr calls

end Habit

/-! ## All code -/

/-- What is executed in a frame, the names of which have been declared. -/
def Habit.conduct (H : Habit) : Conduct where
  Has := H.Has
  code _ := True
  evaluator _ := True
  callable := H.Calls
  has_pure := H.has_pure
  has_fail := H.has_fail
  has_exhausted := H.has_exhausted
  has_look := H.has_look
  has_newCell v := H.has_newCell v false
  has_memberOrNew := H.has_memberOrNew
  has_write := H.has_write
  has_resolve := H.has_resolve
  has_setExplicit _ := H.has_setExplicit _
  has_bind := H.has_bind
  has_visiting := H.has_visiting
  has_within _ _ := H.has_within _
  has_withObject := H.has_withObject
  callable_stored := Habit.calls_stored
  has_bind_callable hm hcall hnext :=
    H.has_bind hm fun a t hr => hnext a t (Habit.calls_behind hm hr hcall)
  has_native := Habit.has_native
  has_call {_ _ _ decl _ _} _ hcall hbody := H.has_call hcall fun frame _ =>
    (Stmt.follows_declareBody decl.body).bind fun _ =>
      Follows.bind (fun t => hbody frame t fun _ _ => trivial) fun _ => follows_pure _

namespace Evaluator

/-- An evaluator that follows a habit in every frame. -/
structure Follows (H : Habit) (ev : Evaluator) : Prop where
  evaluate : ∀ c e, H.Follows c (ev.evaluate c e)
  execute : ∀ c stmt, H.Follows c (ev.execute c stmt)

theorem Follows.obeys {ev : Evaluator} (h : ev.Follows H) : ev.Obeys H.conduct :=
  ⟨trivial, h.evaluate, fun c stmt _ => h.execute c stmt⟩

variable {ev : Evaluator} (hev : ev.Follows H)

include hev

theorem follows_executeBody (body : List Stmt) : H.Follows c (ev.executeBody c body) :=
  obeys_executeBody hev.obeys fun _ _ => trivial

theorem follows_runBody (body : List Stmt) : H.Follows c (ev.runBody c body) :=
  (Stmt.follows_declareBody body).bind fun _ => follows_executeBody hev body

theorem has_runProcedure {decl : Procedure} {home : FrameId} (args : List CellId)
    (hcall : H.callable s decl home) : H.Has c s (ev.runProcedure decl home args) :=
  obeys_runProcedure hev.obeys args hcall

theorem follows_operand (e : Expr) : H.Follows c (ev.operand c e) := obeys_operand hev.obeys e

theorem follows_operandValue (e : Expr) : H.Follows c (ev.operandValue c e) :=
  obeys_operandValue hev.obeys e

theorem follows_passedAll (pairs : List (Param × Arg)) : H.Follows c (ev.passedAll c pairs) :=
  obeys_passedAll hev.obeys pairs

/-- What may be called before the arguments are evaluated may be called afterwards. -/
theorem has_call {f : Callable} (args : List Arg) (hcall : H.Calls s f) :
    H.Has c s (ev.call c f args) :=
  obeys_call hev.obeys args hcall

omit hev

/-- **Every evaluator follows every habit**, whatever it evaluates or executes and however far
its bound reaches. -/
theorem follows_ofBound (H : Habit) (bound : Nat) : (ofBound bound).Follows H :=
  have obeys := obeys_ofBound H.conduct bound fun _ _ => trivial
  ⟨obeys.evaluate, fun c stmt => obeys.execute c stmt fun _ _ => trivial⟩

end Evaluator

end PageScript
