import PageScript.Machine.Evaluation
import PageScript.Proofs.Syntax.Nesting

/-!
# Proofs/Machine/Conduct — what holds of the code that is executed, by the way runs are built

A `Conduct` is a property of runs in a frame, from a state on, that every single step which executes
code has and that is handed on wherever the machine puts runs together.  It may speak of some code
and of some evaluators only: then the statements that are executed in a frame have to be of that kind,
those inside them included, and so do the evaluators at smaller bounds.
Every evaluator follows every conduct, at every bound (`Evaluator.obeys_ofBound`): there is one lemma
for each clause of the machine, in the order of the clauses, and the induction over expressions,
statements and calls is made here, once.  What declares names is not spoken of.
-/

namespace PageScript

/-- A property of runs in a frame, from a state on, that single steps have and that the ways to build
runs hand on. -/
structure Conduct where
  Has : {α : Type} → FrameId → State → Run α → Prop
  /-- The statements that are spoken of. -/
  code : Stmt → Prop
  /-- The evaluators that are spoken of. -/
  evaluator : Evaluator → Prop
  /-- The functions of which calls have the property. -/
  callable : State → Callable → Prop
  has_pure : ∀ {α : Type} {c s} (a : α), Has c s (pure a : Run α)
  has_fail : ∀ {α : Type} {c s} cause, Has c s (Run.fail cause : Run α)
  has_exhausted : ∀ {α : Type} {c s}, Has c s (Run.exhausted : Run α)
  has_look : ∀ {α : Type} {c s} (f : State → α), Has c s (Run.look f)
  has_newCell : ∀ {c s} v, Has c s (Run.newCell v)
  has_memberOrNew : ∀ {c s} id name, Has c s (Run.step (·.memberOrNew id name))
  has_write : ∀ {c s} id v refused, Has c s (Run.write id v refused)
  has_resolve : ∀ {c s} name, Has c s (Run.step (·.resolve c name true))
  has_setExplicit : ∀ {c s span on}, code (.optionExplicit span on) →
    Has c s (Run.change (·.mapFrames (·.setExplicit c on)))
  has_bind : ∀ {α β : Type} {c s} {m : Run α} {next : α → Run β}, Has c s m →
    (∀ a t, m s = .done a t → Has c t (next a)) → Has c s (m >>= next)
  has_visiting : ∀ {α : Type} {c s} {m : FrameId → Run α}, Has c s (m c) →
    Has c s (Run.visiting c m)
  /-- A fault that leaves a statement carries its place. -/
  has_within : ∀ {c s ev stmt}, evaluator ev → code stmt → Has c s (ev.execute c stmt) →
    Has c s (Run.within stmt.span (ev.execute c stmt))
  has_withObject : ∀ {α : Type} {c s} {m : Run α} object,
    Has c { s with objects := object :: s.objects } m → Has c s (Run.withObject object m)
  callable_stored : ∀ {s id f}, s.store.function? id = some f → callable s f
  /-- What may be called in front of a run may be called behind it. -/
  has_bind_callable : ∀ {α β : Type} {c s f} {m : Run α} {next : α → Run β}, Has c s m →
    callable s f → (∀ a t, callable t f → Has c t (next a)) → Has c s (m >>= next)
  has_native : ∀ {c s name service held}, callable s (.native name service held) → ∀ args,
    Has c s (service.call held args)
  /-- A call has the property if its body has it, as long as this is code that is spoken of. -/
  has_call : ∀ {c s ev decl home args}, evaluator ev → callable s (.script decl home) →
    (∀ frame t, Stmt.Throughout code decl.body →
      Has frame t (Evaluator.executeBody ev frame decl.body)) →
    Has c s (ev.runProcedure decl home args)

namespace Conduct

variable {U : Conduct} {α β : Type} {c : FrameId} {s : State}

/-- A run in a frame has the property from every state on. -/
def Obeys (U : Conduct) (c : FrameId) (m : Run α) : Prop := ∀ s, U.Has c s m

/-! ## Runs built by the rules -/

theorem Obeys.bind {m : Run α} {next : α → Run β} (hm : U.Obeys c m)
    (hnext : ∀ a, U.Obeys c (next a)) : U.Obeys c (m >>= next) :=
  fun s => U.has_bind (hm s) fun a t _ => hnext a t

/-- Behind a look at the state, the run goes on from the same state. -/
theorem has_look_bind {f : State → α} {next : α → Run β} (hnext : U.Has c s (next (f s))) :
    U.Has c s (Run.look f >>= next) :=
  U.has_bind (U.has_look f) fun _ _ hr => by
    cases hr
    exact hnext

theorem obeys_pure (a : α) : U.Obeys c (pure a : Run α) := fun _ => U.has_pure a

theorem obeys_look (f : State → α) : U.Obeys c (Run.look f) := fun _ => U.has_look f

theorem obeys_read (id : CellId) : U.Obeys c (Run.read id) := obeys_look _

theorem obeys_fail (cause : Fault.Cause) : U.Obeys c (Run.fail cause : Run α) :=
  fun _ => U.has_fail cause

theorem obeys_exhausted : U.Obeys c (Run.exhausted : Run α) := fun _ => U.has_exhausted

theorem obeys_ofExcept (result : Except Fault.Cause α) : U.Obeys c (Run.ofExcept result) := by
  cases result with
  | ok a => exact obeys_pure a
  | error cause => exact obeys_fail cause

theorem obeys_newCell (value : Value) : U.Obeys c (Run.newCell value) :=
  fun _ => U.has_newCell value

theorem obeys_write (id : CellId) (value : Value) (refused : Fault.Cause) :
    U.Obeys c (Run.write id value refused) :=
  fun _ => U.has_write id value refused

theorem Obeys.visiting {m : FrameId → Run α} (hm : U.Obeys c (m c)) :
    U.Obeys c (Run.visiting c m) :=
  fun s => U.has_visiting (hm s)

theorem Obeys.withObject {m : Run α} (hm : U.Obeys c m) (object : CellId) :
    U.Obeys c (Run.withObject object m) :=
  fun _ => U.has_withObject object (hm _)

theorem Obeys.ite {p : Prop} [Decidable p] {m m' : Run α} (hm : U.Obeys c m)
    (hm' : U.Obeys c m') : U.Obeys c (if p then m else m') := by
  split
  · exact hm
  · exact hm'

theorem Obeys.repeatWhile {pass : Run Bool} (hpass : U.Obeys c pass) :
    ∀ bound, U.Obeys c (Run.repeatWhile bound pass)
  | 0 => obeys_exhausted
  | bound + 1 => hpass.bind fun again => by
    cases again with
    | true => exact Obeys.repeatWhile hpass bound
    | false => exact obeys_pure ()

end Conduct

variable {U : Conduct} {c : FrameId} {s : State}

open Conduct

/-! ## Calls -/

/-- A bare reference calls a procedure of the store. -/
theorem Store.function?_of_bareCall? {s : Store} {value : Value} {decl : Procedure}
    {home : FrameId} (h : s.bareCall? value = some (decl, home)) :
    ∃ id, s.function? id = some (.script decl home) := by
  unfold bareCall? at h
  split at h
  · rename_i id
    split at h
    · rename_i found
      split at h
      · cases h
        exact ⟨id, found⟩
      · cases h
    · cases h
  · cases h

namespace Evaluator

/-- So does a call. -/
theorem function?_of_callable? {f : Callable} {value : Value}
    (h : callable? s value = some f) : ∃ id, s.store.function? id = some f := by
  cases value with
  | function id => exact ⟨id, h⟩
  | _ => cases h

/-- An evaluator that is spoken of and follows a conduct in every frame, as long as it executes code
that is spoken of. -/
structure Obeys (U : Conduct) (ev : Evaluator) : Prop where
  spoken : U.evaluator ev
  evaluate : ∀ c e, U.Obeys c (ev.evaluate c e)
  execute : ∀ c stmt, Stmt.Throughout U.code [stmt] → U.Obeys c (ev.execute c stmt)

variable {ev : Evaluator} (hev : ev.Obeys U)

include hev

theorem obeys_executeBody : ∀ {body : List Stmt}, Stmt.Throughout U.code body →
    U.Obeys c (ev.executeBody c body)
  | [], _ => obeys_pure ()
  | stmt :: _, h =>
    have ⟨first, further⟩ := Stmt.throughout_cons h
    Conduct.Obeys.bind (fun s => U.has_within hev.spoken first.here (hev.execute c stmt first s))
      fun _ => obeys_executeBody further

theorem obeys_runProcedure {decl : Procedure} {home : FrameId} (args : List CellId)
    (hcall : U.callable s (.script decl home)) : U.Has c s (ev.runProcedure decl home args) :=
  U.has_call hev.spoken hcall fun _ t hbody => obeys_executeBody hev hbody t

/-- A bare reference calls the procedure that it finds in the store at that moment. -/
theorem obeys_operand (e : Expr) : U.Obeys c (ev.operand c e) := by
  refine (hev.evaluate c e).bind fun cell => ?_
  split
  · intro s
    refine has_look_bind ?_
    split
    · rename_i decl home found
      obtain ⟨id, stored⟩ := Store.function?_of_bareCall? found
      exact obeys_runProcedure hev [] (U.callable_stored stored)
    · exact obeys_pure _ s
  · exact obeys_pure _

theorem obeys_operandValue (e : Expr) : U.Obeys c (ev.operandValue c e) :=
  (obeys_operand hev e).bind fun _ => obeys_read _

theorem obeys_operandNumber (e : Expr) : U.Obeys c (ev.operandNumber c e) :=
  (obeys_operandValue hev e).bind fun _ => obeys_ofExcept _

theorem obeys_condition (e : Expr) : U.Obeys c (ev.condition c e) :=
  (obeys_operandValue hev e).bind fun _ => obeys_ofExcept _

/-! ## Variables and members -/

omit hev

theorem obeys_variableCell (name : Name) : U.Obeys c (variableCell c name) := by
  refine (Conduct.Obeys.visiting (fun _ => U.has_resolve _)).bind fun cell => ?_
  cases cell with
  | some cell => exact obeys_pure cell
  | none => exact obeys_fail _

theorem obeys_enclosingObject : U.Obeys c enclosingObject := by
  refine (obeys_look _).bind fun objects => ?_
  split
  · exact obeys_read _
  · exact obeys_fail _

theorem obeys_memberCell (object : Value) (name : Name) : U.Obeys c (memberCell object name) := by
  unfold memberCell
  split
  · refine (obeys_look _).bind fun cell => ?_
    split
    · exact obeys_pure _
    · exact obeys_fail _
  · exact obeys_fail _

theorem obeys_memberPlace (object : Value) (name : Name) :
    U.Obeys c (memberPlace object name) := by
  unfold memberPlace
  split
  · exact fun _ => U.has_memberOrNew _ _
  · exact obeys_fail _

include hev

theorem obeys_place (e : Expr) : U.Obeys c (ev.place c e) := by
  unfold place
  split
  · exact (obeys_operandValue hev _).bind fun _ => obeys_memberPlace _ _
  · exact obeys_enclosingObject.bind fun _ => obeys_memberPlace _ _
  · exact hev.evaluate c _

/-! ## Arguments -/

theorem obeys_passed (param : Param) (arg : Arg) : U.Obeys c (ev.passed c param arg) := by
  unfold passed
  split
  · exact obeys_place hev _
  · exact (obeys_operandValue hev _).bind fun _ => obeys_newCell _

theorem obeys_passedAll : ∀ pairs, U.Obeys c (ev.passedAll c pairs)
  | [] => obeys_pure _
  | (param, arg) :: rest =>
    (obeys_passed hev param arg).bind fun _ => (obeys_passedAll rest).bind fun _ => obeys_pure _

theorem obeys_operands : ∀ args, U.Obeys c (ev.operands c args)
  | [] => obeys_pure _
  | arg :: rest =>
    (obeys_operand hev arg.value).bind fun _ => (obeys_operands rest).bind fun _ => obeys_pure _

/-- What may be called before the arguments are evaluated may be called afterwards. -/
theorem obeys_call {f : Callable} (args : List Arg) (hcall : U.callable s f) :
    U.Has c s (ev.call c f args) := by
  cases f with
  | native name service held =>
    exact U.has_bind_callable (obeys_operands hev args s) hcall fun cells _ hcall =>
      U.has_native hcall cells
  | script decl home =>
    unfold call
    dsimp only
    split
    · exact obeys_fail _ s
    · exact U.has_bind_callable (obeys_passedAll hev _ s) hcall fun cells _ hcall =>
        obeys_runProcedure hev cells hcall

theorem obeys_calledValue (callee : Expr) : U.Obeys c (ev.calledValue c callee) := by
  refine (Conduct.Obeys.visiting (obeys_look _)).bind fun cell => ?_
  split
  · exact obeys_read _
  · exact (hev.evaluate c callee).bind fun _ => obeys_read _

theorem obeys_applyCall (callee : Expr) (args : List Arg) :
    U.Obeys c (ev.applyCall c callee args) := by
  refine (obeys_calledValue hev callee).bind fun value => ?_
  intro s
  refine has_look_bind ?_
  split
  · rename_i f found
    obtain ⟨id, stored⟩ := function?_of_callable? found
    exact obeys_call hev args (U.callable_stored stored)
  · exact obeys_fail _ s

/-! ## Expressions -/

theorem obeys_evaluateExpr (e : Expr) : U.Obeys c (ev.evaluateExpr c e) := by
  unfold evaluateExpr
  split
  · exact obeys_newCell _
  · exact obeys_variableCell _
  · exact (obeys_operandValue hev _).bind fun _ => obeys_memberCell _ _
  · exact obeys_enclosingObject.bind fun _ => obeys_memberCell _ _
  · exact obeys_applyCall hev _ _
  · exact obeys_fail _
  · exact (hev.evaluate c _).bind fun _ => (obeys_read _).bind fun _ =>
      (hev.evaluate c _).bind fun _ => (obeys_read _).bind fun _ =>
        (obeys_ofExcept _).bind fun _ => obeys_newCell _
  · exact (obeys_operandValue hev _).bind fun _ => (obeys_operandValue hev _).bind fun _ =>
      (obeys_ofExcept _).bind fun _ => obeys_newCell _
  · exact (obeys_operandValue hev _).bind fun _ => (obeys_ofExcept _).bind fun _ => obeys_newCell _

/-! ## Statements -/

variable {body : List Stmt} (hbody : Stmt.Throughout U.code body)

include hbody

theorem obeys_loopPass (cond : Expr) (untilTrue : Bool) :
    U.Obeys c (ev.loopPass c cond body untilTrue) :=
  (obeys_condition hev cond).bind fun _ => Obeys.ite (obeys_pure _)
    ((obeys_executeBody hev hbody).bind fun _ => obeys_pure _)

theorem obeys_countPass (var : Name) (counter : CellId) (last step : Float) :
    U.Obeys c (ev.countPass c var counter last step body) :=
  (obeys_read _).bind fun _ => (obeys_ofExcept _).bind fun _ => Obeys.ite (obeys_pure _)
    ((obeys_executeBody hev hbody).bind fun _ => (obeys_read _).bind fun _ =>
      (obeys_ofExcept _).bind fun _ => (obeys_write _ _ _).bind fun _ => obeys_pure _)

theorem obeys_eachPass (var : Name) (element : CellId) :
    ∀ items, U.Obeys c (ev.eachPass c var element body items)
  | [] => obeys_pure _
  | item :: rest =>
    (obeys_read item).bind fun _ => (obeys_write _ _ _).bind fun _ =>
      (obeys_executeBody hev hbody).bind fun _ => obeys_eachPass var element rest

theorem obeys_count (var : Name) (first last step : Expr) (span : Span) :
    U.Obeys c (ev.executeStmt c (.count span var first last step body)) :=
  (obeys_operandNumber hev first).bind fun _ => (obeys_operandNumber hev last).bind fun _ =>
    (obeys_operandNumber hev step).bind fun _ => (obeys_variableCell var).bind fun _ =>
      (obeys_write _ _ _).bind fun _ =>
        Conduct.Obeys.repeatWhile (obeys_countPass hev hbody _ _ _ _) _

theorem obeys_forEach (var : Name) (collection : Expr) (span : Span) :
    U.Obeys c (ev.executeStmt c (.forEach span var collection body)) := by
  refine (obeys_operandValue hev collection).bind fun value => ?_
  split
  · exact (obeys_look _).bind fun _ => (obeys_variableCell var).bind fun _ =>
      obeys_eachPass hev hbody var _ _
  · exact obeys_pure _
  · exact obeys_fail _

omit hbody

theorem obeys_matchesAny (subject : Value) : ∀ es, U.Obeys c (ev.matchesAny c subject es)
  | [] => obeys_pure _
  | e :: rest => (obeys_operandValue hev e).bind fun _ => (obeys_ofExcept _).bind fun _ =>
    Obeys.ite (obeys_pure _) (obeys_matchesAny subject rest)

theorem obeys_executeCases (subject : Value) : ∀ {cases : List Case},
    (∀ case ∈ cases, Stmt.Throughout U.code case.body) → U.Obeys c (ev.executeCases c subject cases)
  | [], _ => obeys_pure _
  | .mk none _ :: _, h => obeys_executeBody hev (h _ List.mem_cons_self)
  | .mk (some conditions) _ :: _, h =>
    have ⟨first, further⟩ := List.forall_mem_cons.mp h
    (obeys_matchesAny hev subject conditions).bind fun _ =>
      Obeys.ite (obeys_executeBody hev first) (obeys_executeCases subject further)

theorem obeys_executeStmt : ∀ {stmt : Stmt}, Stmt.Throughout U.code [stmt] →
    U.Obeys c (ev.executeStmt c stmt)
  | .block .., h | .includeFile _ _ (some _), h => obeys_executeBody hev (h.inside List.mem_cons_self)
  | .assign _ target value, _ =>
    (obeys_operandValue hev value).bind fun _ => (obeys_place hev target).bind fun _ =>
      obeys_write _ _ _
  | .call _ e, _ => (hev.evaluate c e).bind fun _ => obeys_pure _
  | .dim .., _ | .const .., _ | .procedure .., _ | .classDecl .., _ | .property .., _ => obeys_pure _
  | .redim .., _ | .exit .., _ | .onError _ .resumeNext, _ | .onError _ .gotoZero, _
  | .includeFile _ _ none, _ => obeys_fail _
  | .branch _ cond _ _, h =>
    (obeys_condition hev cond).bind fun _ =>
      Obeys.ite (obeys_executeBody hev (h.inside List.mem_cons_self))
        (obeys_executeBody hev (h.inside (List.mem_cons_of_mem _ List.mem_cons_self)))
  | .loop _ cond _ untilTrue _, h =>
    have hbody := h.inside List.mem_cons_self
    have passes := (obeys_loopPass hev hbody cond untilTrue).repeatWhile ev.passes
    Obeys.ite ((obeys_executeBody hev hbody).bind fun _ => passes) passes
  | .count span var first last step _, h =>
    obeys_count hev (h.inside List.mem_cons_self) var first last step span
  | .forEach span var collection _, h =>
    obeys_forEach hev (h.inside List.mem_cons_self) var collection span
  | .select _ subject _, h =>
    (obeys_operandValue hev subject).bind fun _ =>
      obeys_executeCases hev _ fun _ hcase => h.inside (List.mem_map_of_mem hcase)
  | .withObject _ object _, h =>
    (obeys_operand hev object).bind fun _ =>
      (obeys_executeBody hev (h.inside List.mem_cons_self)).withObject _
  | .optionExplicit _ on, h =>
    Conduct.Obeys.visiting (m := fun c => Run.change (·.mapFrames (·.setExplicit c on)))
      fun _ => U.has_setExplicit h.here

omit hev

/-- **Every evaluator follows every conduct** that speaks of evaluators up to its bound, whatever it
evaluates or executes of the code that is spoken of. -/
theorem obeys_ofBound (U : Conduct) :
    ∀ bound, (∀ k ≤ bound, U.evaluator (.ofBound k)) → (ofBound bound).Obeys U
  | 0, spoken => ⟨spoken 0 (Nat.le_refl 0), fun _ _ => obeys_exhausted, fun _ _ _ => obeys_exhausted⟩
  | bound + 1, spoken =>
    have parts := obeys_ofBound U bound fun k hk => spoken k (Nat.le_succ_of_le hk)
    ⟨spoken (bound + 1) (Nat.le_refl _), fun _ e => obeys_evaluateExpr parts e,
      fun _ _ h => obeys_executeStmt parts h⟩

/-- A statement is executed by the evaluators below. -/
theorem obeys_execute_ofBound {bound : Nat} (spoken : ∀ k < bound, U.evaluator (.ofBound k))
    {stmt : Stmt} (h : Stmt.Throughout U.code [stmt]) : U.Obeys c ((ofBound bound).execute c stmt) := by
  cases bound with
  | zero => exact obeys_exhausted
  | succ bound =>
    exact obeys_executeStmt (obeys_ofBound U bound fun k hk => spoken k (Nat.lt_succ_of_le hk)) h

end Evaluator

end PageScript
