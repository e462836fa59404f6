import PageScript.Proofs.Machine.Contents
import PageScript.Proofs.Machine.Habit
import PageScript.Proofs.Machine.Meets
import PageScript.Proofs.Machine.Opening

/-!
# Proofs/Machine/Discipline — what every step keeps, every run keeps

A `Discipline` is a pair of relations for runs in a frame: `during`, between the state that a run
starts from and the moments it comes through, and `behind`, between that state and the one it ends
in.  Its fields are closed under the single steps of the machine and under the call of a procedure.
To keep a discipline is handed on by the ways to build runs.  It is a habit (`Discipline.habit`): the
single steps are those that the discipline speaks about, and the frame of a call is set up step by step
before its body runs in it.  So an evaluator keeps every discipline, at every bound
(`Evaluator.keeps_ofBound`).
-/

namespace PageScript

/-- Relations between the state that a run in a frame starts from, the moments it comes through
(`during`) and the state it ends in (`behind`), which hold if every step keeps them. -/
structure Discipline where
  during : FrameId → State → Moment → Prop
  behind : FrameId → State → State → Prop
  /-- The procedures that the discipline speaks about calls of. -/
  callable : State → Procedure → FrameId → Prop
  /-- What native functions may do. -/
  natives : State → Deed → Prop
  start : ∀ {c s}, during c s s.moment
  refl : ∀ {c s}, behind c s s
  trans : ∀ {c s t u}, behind c s t → behind c t u → behind c s u
  later : ∀ {c s t m}, behind c s t → during c t m → during c s m
  visit : ∀ {c s}, during c s ⟨.visit c, s⟩
  newCell : ∀ {c s v readonly}, behind c s (s.newCell v readonly).2
  newObject : ∀ {c s}, behind c s s.newObject.2
  memberOrNew : ∀ {c s id name}, behind c s (s.memberOrNew id name).2
  put : ∀ {c s id v}, s.store.isReadonly id = false → behind c s (s.put id v)
  addMember : ∀ {c s id name cell}, (s.store.members id).get? name.text = none →
    behind c s (s.putMember id name cell)
  putMember : ∀ {c s object name register}, natives s (.putMember object name register) →
    ∀ {id cell}, behind c s (s.putMember id name cell)
  newNative : ∀ {c s name service held}, service.Does (natives s) →
    behind c s (s.newFunction (.native name service held)).2
  tick : ∀ {c s}, behind c s s.tick.2
  respond : ∀ {c s f}, behind c s (s.mapResponse f)
  addLine : ∀ {c s line}, behind c s (s.addLine line)
  define : ∀ {c s how name v}, how ≠ .replacing → s.declarationFault? c how name = none →
    behind c s (s.define c how name v).2
  newFunction : ∀ {c s decl}, (s.frames.get c).procedure = none →
    behind c s (s.newFunction (.script decl c)).2
  setExplicit : ∀ {c s on}, behind c s (s.mapFrames (·.setExplicit c on))
  inside_during : ∀ {c s object m}, during c { s with objects := object :: s.objects } m →
    during c s m
  inside_behind : ∀ {c s object t}, behind c { s with objects := object :: s.objects } t →
    behind c s { t with objects := t.objects.tail }
  callable_stored : ∀ {s id decl home}, s.store.function? id = some (.script decl home) →
    callable s decl home
  callable_behind : ∀ {c s t decl home}, behind c s t → callable s decl home → callable t decl home
  natives_stored : ∀ {s : State} {id f}, s.store.function? id = some f → f.Does (natives s)
  natives_behind : ∀ {c s t deed}, behind c s t → natives s deed → natives t deed
  /-- A call drops the objects of the enclosing `with` blocks before anything else. -/
  calling : ∀ {c s decl home act}, callable s decl home →
    act = .proceed ∨ act = .call decl home → during c s ⟨act, { s with objects := [] }⟩
  opening : ∀ {c s decl home t act}, callable s decl home → s.isFull = false → s.Opens home t →
    act = .proceed ∨ act = .visit s.nextFrame → during c s ⟨act, t⟩
  body_during : ∀ {c s decl home t m}, callable s decl home → s.isFull = false → s.Opens home t →
    (t.frames.get s.nextFrame).procedure = some decl.name → during s.nextFrame t m → during c s m
  closing : ∀ {c s decl home t u}, callable s decl home → s.isFull = false → s.Opens home t →
    (t.frames.get s.nextFrame).procedure = some decl.name → behind s.nextFrame t u →
    during c s (u.leave s.nextFrame).moment
  body_behind : ∀ {c s decl home t u}, callable s decl home → s.isFull = false → s.Opens home t →
    (t.frames.get s.nextFrame).procedure = some decl.name → behind s.nextFrame t u →
    behind c s { u.leave s.nextFrame with objects := s.objects }

namespace Discipline

variable {D : Discipline} {α β : Type} {c : FrameId} {s t : State}

theorem during_of_behind (h : D.behind c s t) : D.during c s t.moment := D.later h D.start

/-- A variable that is made by its first use is declared. -/
theorem resolve (D : Discipline) {name : Name} {mayDeclare : Bool} :
    D.behind c s (s.resolve c name mayDeclare).2 := by
  obtain h | ⟨free, h⟩ := s.resolve_cases c name mayDeclare
  · rw [h]
    exact D.refl
  · rw [h]
    exact D.define (by decide) free

/-- A run in a frame keeps a discipline from a state on. -/
def KeepsFrom (D : Discipline) (c : FrameId) (s : State) (m : Run α) : Prop :=
  m.Meets s (D.during c s) (fun _ => D.behind c s) (D.behind c s)

/-- A run in a frame keeps a discipline. -/
def Keeps (D : Discipline) (c : FrameId) (m : Run α) : Prop := ∀ s, D.KeepsFrom c s m

/-! ## Runs built by the rules -/

theorem KeepsFrom.bind {m : Run α} {next : α → Run β} (hm : D.KeepsFrom c s m)
    (hnext : ∀ a t, m s = .done a t → D.behind c s t → D.KeepsFrom c t (next a)) :
    D.KeepsFrom c s (m >>= next) :=
  Run.Meets.bind hm fun a t hr hst =>
    (hnext a t hr hst).mono (fun _ => D.later hst) (fun _ _ => D.trans hst) fun _ => D.trans hst

theorem keeps_pure (a : α) : D.Keeps c (pure a : Run α) := fun _ => Run.meets_pure D.start D.refl

theorem keeps_look (f : State → α) : D.Keeps c (Run.look f) :=
  fun _ => Run.meets_look D.start D.refl

theorem keeps_fail (cause : Fault.Cause) : D.Keeps c (Run.fail cause : Run α) :=
  fun _ => Run.meets_fail D.start D.refl

theorem keeps_exhausted : D.Keeps c (Run.exhausted : Run α) :=
  fun _ => Run.meets_exhausted D.start

theorem keeps_change {f : State → State} (hf : ∀ s, D.behind c s (f s)) :
    D.Keeps c (Run.change f) :=
  fun s => Run.meets_change D.start (during_of_behind (hf s)) (hf s)

theorem KeepsFrom.step {f : State → α × State} (hf : D.behind c s (f s).2) :
    D.KeepsFrom c s (Run.step f) :=
  Run.meets_step D.start (during_of_behind hf) hf

theorem keeps_step {f : State → α × State} (hf : ∀ s, D.behind c s (f s).2) :
    D.Keeps c (Run.step f) :=
  fun s => KeepsFrom.step (hf s)

theorem keeps_write (id : CellId) (value : Value) (refused : Fault.Cause) :
    D.Keeps c (Run.write id value refused) :=
  fun _ => Run.meets_write D.start (fun h => ⟨during_of_behind (D.put h), D.put h⟩) D.refl

theorem keepsFrom_accept (id : CellId) (value : Value) :
    D.KeepsFrom c s (Run.step (·.write id value)) := by
  refine KeepsFrom.step ?_
  unfold State.write
  split
  · exact D.refl
  · rename_i writable
    exact D.put (Bool.eq_false_iff.mpr writable)

theorem keepsFrom_addMember (id : ObjectId) (name : Name) (cell : CellId) :
    D.KeepsFrom c s (Run.step (·.addMember id name cell)) := by
  refine KeepsFrom.step ?_
  obtain same | ⟨unbound, same⟩ := s.addMember_cases id name cell
  · rw [same]
    exact D.refl
  · rw [same]
    exact D.addMember unbound

theorem KeepsFrom.visiting {m : FrameId → Run α} (hm : D.KeepsFrom c s (m c)) :
    D.KeepsFrom c s (Run.visiting c m) :=
  Run.Meets.visiting D.visit hm

theorem KeepsFrom.withObject {m : Run α} {object : CellId}
    (hm : D.KeepsFrom c { s with objects := object :: s.objects } m) :
    D.KeepsFrom c s (Run.withObject object m) :=
  Run.Meets.withObject D.start
    (hm.mono (fun _ => D.inside_during)
      (fun _ _ h => ⟨during_of_behind (D.inside_behind h), D.inside_behind h⟩)
      fun _ h => ⟨during_of_behind (D.inside_behind h), D.inside_behind h⟩)

theorem keeps_declare {how : State.Declaration} (hhow : how ≠ .replacing) (name : Name)
    (value : Value) : D.Keeps c (Run.declare c how name value) :=
  fun _ => Run.meets_declare D.start D.visit (fun hfree =>
      ⟨during_of_behind (D.define hhow hfree), D.define hhow hfree⟩) fun _ => D.refl

end Discipline

/-! ## Evaluators -/

variable {D : Discipline} {c : FrameId} {s : State}

namespace Discipline

/-- The frame of a call is set up step by step; then the body keeps the discipline in it. -/
theorem keepsFrom_call {ev : Evaluator} {decl : Procedure} {home : FrameId} {args : List CellId}
    (hcall : D.callable s decl home)
    (body : ∀ frame (result : CellId), D.Keeps frame (do
      Stmt.declareBody frame decl.body
      ev.executeBody frame decl.body
      pure result)) : D.KeepsFrom c s (ev.runProcedure decl home args) := by
  refine Run.Meets.withoutObjects D.start (Run.Meets.about (D.calling hcall (.inr rfl)) ?_)
  refine Run.Meets.inCall (D.calling hcall (.inl rfl)) (fun _ => ⟨D.start, D.refl⟩) fun room => ?_
  have opens₁ := State.opens_enter s home
  have opens₂ := opens₁.setProcedure decl.name
  have opens₃ := opens₂.define rfl decl.name
  have opens₄ := State.Opens.bindAll (decl.params.zip args) opens₃
  have seen {t} (h : s.Opens home t) : D.during c s t.moment := D.opening hcall room h (.inl rfl)
  have visited {t} (h : s.Opens home t) : D.during c s ⟨.visit s.nextFrame, t⟩ :=
    D.opening hcall room h (.inr rfl)
  refine Run.Meets.bind (q := fun _ t => t = _)
    (Run.Meets.visiting (visited opens₁) (Run.meets_change (seen opens₁) (seen opens₂) rfl)) ?_
  rintro _ _ - rfl
  refine Run.Meets.bind (q := fun _ t => t = _)
    (Run.meets_declare (seen opens₂) (visited opens₂) (fun _ => ⟨seen opens₃, rfl⟩)
      fun refused => absurd (opens₂.declarationFault? decl.name) refused) ?_
  rintro result _ - rfl
  refine Run.Meets.bind (q := fun _ t => t = _)
    (Run.Meets.visiting (visited opens₃) (Run.meets_change (seen opens₃) (seen opens₄) rfl)) ?_
  rintro _ _ - rfl
  have marked := (State.Opens.procedure_bindAll (decl.params.zip args) opens₃).trans
    ((opens₂.procedure_bind _ _).trans (opens₁.procedure_setProcedure decl.name))
  exact (body s.nextFrame result _).mono (fun _ => D.body_during hcall room opens₄ marked)
    (fun _ _ h => ⟨D.closing hcall room opens₄ marked h,
      during_of_behind (D.body_behind hcall room opens₄ marked h),
      D.body_behind hcall room opens₄ marked h⟩)
    fun _ h => ⟨D.closing hcall room opens₄ marked h,
      during_of_behind (D.body_behind hcall room opens₄ marked h),
      D.body_behind hcall room opens₄ marked h⟩

/-- To keep a discipline. -/
def habit (D : Discipline) : Habit where
  Has c s m := D.KeepsFrom c s m
  callable := D.callable
  natives := D.natives
  has_pure a := keeps_pure a _
  has_fail cause := keeps_fail cause _
  has_exhausted := keeps_exhausted _
  has_look f := keeps_look f _
  has_newCell _ _ := keeps_step (fun _ => D.newCell) _
  has_newObject := keeps_step (fun _ => D.newObject) _
  has_memberOrNew _ _ := keeps_step (fun _ => D.memberOrNew) _
  has_write id v refused := keeps_write id v refused _
  has_accept := keepsFrom_accept
  has_addMember := keepsFrom_addMember
  has_putMember allowed _ _ := Run.meets_change D.start (during_of_behind (D.putMember allowed))
    (D.putMember allowed)
  has_newNative does _ _ := KeepsFrom.step (D.newNative does)
  has_failAt _ _ := Run.meets_failAt D.start D.refl
  has_tick := KeepsFrom.step D.tick
  has_respond _ := keeps_change (fun _ => D.respond) _
  has_addLine _ := keeps_change (fun _ => D.addLine) _
  has_resolve _ := keeps_step (fun _ => D.resolve) _
  has_declare name v hhow := keeps_declare hhow name v _
  has_newFunction idle := KeepsFrom.step (D.newFunction idle)
  has_setExplicit _ := keeps_change (fun _ => D.setExplicit) _
  has_bind hm hnext := hm.bind fun a t hr _ => hnext a t hr
  has_visiting hm := hm.visiting
  has_within place hm := Run.Meets.within hm place
  has_withObject _ hm := hm.withObject
  callable_stored := D.callable_stored
  callable_behind hm hr := D.callable_behind (hm.done _ _ hr)
  natives_stored := D.natives_stored
  natives_behind hm hr := D.natives_behind (hm.done _ _ hr)
  has_call hcall hbody := keepsFrom_call hcall hbody

end Discipline

namespace Stmt

theorem keeps_declare (stmt : Stmt) : D.Keeps c (stmt.declare c) :=
  follows_declare (H := D.habit) stmt

theorem keeps_declareBody (body : List Stmt) : D.Keeps c (Stmt.declareBody c body) :=
  follows_declareBody (H := D.habit) body

end Stmt

namespace Evaluator

/-- An evaluator that keeps a discipline in every frame. -/
structure Keeps (D : Discipline) (ev : Evaluator) : Prop where
  evaluate : ∀ c e, D.Keeps c (ev.evaluate c e)
  execute : ∀ c stmt, D.Keeps c (ev.execute c stmt)

theorem Keeps.follows {ev : Evaluator} (hev : ev.Keeps D) : ev.Follows D.habit :=
  ⟨hev.evaluate, hev.execute⟩

variable {ev : Evaluator} (hev : ev.Keeps D)

include hev

theorem keeps_executeBody (body : List Stmt) : D.Keeps c (ev.executeBody c body) :=
  follows_executeBody hev.follows body

theorem keeps_runBody (body : List Stmt) : D.Keeps c (ev.runBody c body) :=
  follows_runBody hev.follows body

theorem keeps_operand (e : Expr) : D.Keeps c (ev.operand c e) := follows_operand hev.follows e

theorem keeps_passedAll (pairs : List (Param × Arg)) : D.Keeps c (ev.passedAll c pairs) :=
  follows_passedAll hev.follows pairs

theorem keepsFrom_runProcedure {decl : Procedure} {home : FrameId} (args : List CellId)
    (hcall : D.callable s decl home) : D.KeepsFrom c s (ev.runProcedure decl home args) :=
  has_runProcedure hev.follows args hcall

/-- What may be called before the arguments are evaluated may be called afterwards. -/
theorem keepsFrom_call {f : Callable} (args : List Arg) (hcall : D.habit.Calls s f) :
    D.KeepsFrom c s (ev.call c f args) :=
  has_call hev.follows args hcall

omit hev

/-- **Every evaluator keeps every discipline**, whatever it evaluates or executes and however far
its bound reaches. -/
theorem keeps_ofBound (D : Discipline) (bound : Nat) : (ofBound bound).Keeps D :=
  have follows := follows_ofBound D.habit bound
  ⟨follows.evaluate, follows.execute⟩

end Evaluator

end PageScript
