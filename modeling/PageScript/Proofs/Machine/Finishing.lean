import PageScript.Proofs.Machine.Confinement

/-!
# Proofs/Machine/Finishing — scripts without loops end

A script without conditional and counting loops always ends, however its procedures call each other
(`Evaluator.settles_ofBound`): a call runs at a greater depth, of which there are finitely many, and
at one depth everything that is run is part of the tree that runs there.  The same induction shows
that no code outside the sphere of a state is ever run, with loops or without.
-/

namespace PageScript

open Run

variable {S : Sphere} {c : FrameId}

namespace Sphere

/-- Calls of procedures whose code belongs to the sphere stay within it. -/
def Calls (S : Sphere) : Prop :=
  ∀ {decl : Procedure} {home : FrameId} {args : List CellId}, Stmt.EveryIn S.code decl.body →
    (∀ cell ∈ args, S.cell cell) →
      S.Holds (fun n => (Evaluator.ofBound n).runProcedure decl home args) S.cell

end Sphere

/-- An expression stays within a sphere, whether its value is wanted or the place it denotes. -/
structure Expr.Confined (S : Sphere) (e : Expr) : Prop where
  evaluate : ∀ c, S.Holds (fun n => evaluateWithin n c e) S.cell
  place : ∀ c, S.Holds (fun n => (Evaluator.ofBound n).place c e) S.cell

namespace Evaluator

open Sphere

/-! ## Variables and members -/

theorem holds_variableCell (name : Name) : S.Holds (fun _ => variableCell c name) S.cell := by
  refine (Holds.about (holds_step (R := fun r => ∀ cell, r = some cell → S.cell cell)
    fun _ hs => hs.resolve name)).bind fun r hr => ?_
  cases r with
  | some cell => exact holds_pure (hr cell rfl)
  | none => exact holds_fail (fails_of_ne nofun)

theorem holds_enclosingObject : S.Holds (fun _ => enclosingObject) S.value := by
  refine (holds_look (R := fun objects => ∀ cell ∈ objects, S.cell cell)
    fun _ hs => hs.objects).bind fun objects hobjects => ?_
  cases objects with
  | nil => exact holds_fail (fails_of_ne nofun)
  | cons cell _ => exact holds_read (hobjects cell List.mem_cons_self)

theorem holds_memberCell {object : Value} (hobject : S.value object) (name : Name) :
    S.Holds (fun _ => memberCell object name) S.cell := by
  unfold memberCell
  split
  · rename_i id
    refine (holds_look (R := fun r => ∀ cell, r = some cell → S.cell cell)
      fun _ hs cell found => ?_).bind fun r hr => ?_
    · exact hs.store.members hobject (Dictionary.mem_values_of_get? found)
    · cases r with
      | some cell => exact holds_pure (hr cell rfl)
      | none => exact holds_fail (fails_of_ne nofun)
  · exact holds_fail (fails_of_ne nofun)

theorem holds_memberPlace {object : Value} (hobject : S.value object) (name : Name) :
    S.Holds (fun _ => memberPlace object name) S.cell := by
  unfold memberPlace
  split
  · exact holds_step fun _ hs => hs.memberOrNew hobject name
  · exact holds_fail (fails_of_ne nofun)

/-! ## Operands -/

variable (calls : S.Calls) {e : Expr}

include calls

/-- A bare reference calls a procedure that a value of the sphere leads to. -/
theorem holds_operand (he : e.Confined S) :
    S.Holds (fun n => (ofBound n).operand c e) S.cell := by
  refine (he.evaluate c).bind fun cell hcell => ?_
  split
  · refine (holds_look (R := fun r => ∀ decl home, r = some (decl, home) →
      Stmt.EveryIn S.code decl.body) fun _ hs _ _ => hs.store.bareCall (hs.store.values hcell)).bind
        fun r hr => ?_
    cases r with
    | some found => exact calls (hr _ _ rfl) fun _ h => nomatch h
    | none => exact holds_pure hcell
  · exact holds_pure hcell

theorem holds_operandValue (he : e.Confined S) :
    S.Holds (fun n => (ofBound n).operandValue c e) S.value :=
  (holds_operand calls he).bind fun _ hcell => holds_read hcell

theorem holds_operandNumber (he : e.Confined S) :
    S.Holds (fun n => (ofBound n).operandNumber c e) fun _ => True :=
  (holds_operandValue calls he).bind fun _ _ => holds_computation Value.computes_toNumber

theorem holds_condition (he : e.Confined S) :
    S.Holds (fun n => (ofBound n).condition c e) fun _ => True :=
  (holds_operandValue calls he).bind fun _ _ => holds_computation Value.computes_isTrue

/-! ## Arguments and calls -/

theorem holds_passed (param : Param) {arg : Arg} (harg : arg.value.Confined S) :
    S.Holds (fun n => (ofBound n).passed c param arg) S.cell :=
  Holds.ite (harg.place c)
    ((holds_operandValue calls harg).bind fun _ hv => holds_newCell hv)

theorem holds_passedAll : ∀ {pairs : List (Param × Arg)},
    (∀ pair ∈ pairs, pair.2.value.Confined S) →
      S.Holds (fun n => (ofBound n).passedAll c pairs) fun cells => ∀ cell ∈ cells, S.cell cell
  | [], _ => holds_pure fun _ h => nomatch h
  | (param, arg) :: rest, h => by
    obtain ⟨harg, hrest⟩ := List.forall_mem_cons.mp h
    exact (holds_passed calls param harg).bind fun _ hcell =>
      (holds_passedAll hrest).bind fun _ hcells =>
        holds_pure (List.forall_mem_cons.mpr ⟨hcell, hcells⟩)

theorem holds_operands : ∀ {args : List Arg}, (∀ arg ∈ args, arg.value.Confined S) →
    S.Holds (fun n => (ofBound n).operands c args) fun cells => ∀ cell ∈ cells, S.cell cell
  | [], _ => holds_pure fun _ h => nomatch h
  | arg :: rest, h => by
    obtain ⟨harg, hrest⟩ := List.forall_mem_cons.mp h
    exact (holds_operand calls harg).bind fun _ hcell =>
      (holds_operands hrest).bind fun _ hcells =>
        holds_pure (List.forall_mem_cons.mpr ⟨hcell, hcells⟩)

theorem holds_call {f : Callable} (hf : S.callable f) {args : List Arg}
    (hargs : ∀ arg ∈ args, arg.value.Confined S) :
    S.Holds (fun n => (ofBound n).call c f args) S.cell := by
  cases f with
  | native name service held =>
    exact (holds_operands calls hargs).bind fun _ hcells => service.holds_call hf hcells
  | script decl home =>
    refine Holds.ite (holds_fail (fails_of_ne nofun)) ?_
    refine (holds_passedAll calls fun pair hpair => ?_).bind fun _ hcells => calls hf hcells
    exact hargs _ (List.of_mem_zip hpair).2

omit calls in
theorem holds_calledValue {callee : Expr} (he : callee.Confined S) :
    S.Holds (fun n => (ofBound n).calledValue c callee) S.value := by
  refine (Holds.about (holds_look (R := fun r => ∀ cell, r = some cell → S.cell cell)
    fun s hs cell found => ?_)).bind fun r hr => ?_
  · unfold recursionCell? at found
    split at found
    · dsimp only at found
      split at found
      · obtain ⟨parent, -, hlookup⟩ := Option.bind_eq_some_iff.mp found
        exact hs.frames.lookup hlookup
      · cases found
    · cases found
  · cases r with
    | some cell => exact holds_read (hr cell rfl)
    | none => exact (he.evaluate c).bind fun _ hcell => holds_read hcell

theorem holds_applyCall {callee : Expr} (he : callee.Confined S) {args : List Arg}
    (hargs : ∀ arg ∈ args, arg.value.Confined S) :
    S.Holds (fun n => (ofBound n).applyCall c callee args) S.cell := by
  refine (holds_calledValue he).bind fun v hv => ?_
  refine (holds_look (R := fun r => ∀ f, r = some f → S.callable f)
    fun s hs f found => ?_).bind fun r hr => ?_
  · unfold callable? at found
    split at found
    · exact hs.store.functions hv found
    · cases found
  · cases r with
    | some f => exact holds_call calls (hr f rfl) hargs
    | none => exact holds_fail (fails_of_ne nofun)

/-- The operands of `is` are not called. -/
theorem holds_binary {left right : Expr} (hleft : left.Confined S) (hright : right.Confined S)
    (op : BinaryOp) (s : Span) :
    S.Holds (fun n => (ofBound n).evaluateExpr c (.binary s op left right)) S.cell := by
  have compute (v w : Value) :
      S.Holds (fun _ => ofExcept (Value.applyBinary op v w) >>= Run.newCell) S.cell :=
    (holds_computation (Value.computes_applyBinary op)).bind fun _ hv => holds_newCell hv
  by_cases his : op = .is
  · subst his
    exact (hleft.evaluate c).bind fun _ hl => (holds_read hl).bind fun v _ =>
      (hright.evaluate c).bind fun _ hr => (holds_read hr).bind fun w _ => compute v w
  · have clause n : (ofBound n).evaluateExpr c (.binary s op left right) = (do
        let v ← (ofBound n).operandValue c left
        let w ← (ofBound n).operandValue c right
        ofExcept (Value.applyBinary op v w) >>= Run.newCell) := by
      cases op <;> first | rfl | exact absurd rfl his
    simp only [clause]
    exact (holds_operandValue calls hleft).bind fun v _ =>
      (holds_operandValue calls hright).bind fun w _ => compute v w

end Evaluator

/-! ## Expressions -/

theorem Expr.Confined.of_evaluateExpr {e : Expr}
    (h : ∀ c, S.Holds (fun n => (Evaluator.ofBound n).evaluateExpr c e) S.cell)
    (place : (∀ c, S.Holds (fun n => evaluateWithin n c e) S.cell) →
      ∀ c, S.Holds (fun n => (Evaluator.ofBound n).place c e) S.cell) : e.Confined S :=
  have evaluate c : S.Holds (fun n => evaluateWithin n c e) S.cell :=
    (h c).later rfl fun _ => rfl
  ⟨evaluate, place evaluate⟩

open Evaluator Sphere in
mutual

theorem Expr.confined (calls : S.Calls) : ∀ e : Expr, e.Confined S
  | .literal _ value => .of_evaluateExpr (fun _ => holds_newCell (Value.value_ofLiteral value)) id
  | .var _ name => .of_evaluateExpr (fun _ => holds_variableCell name) id
  | .member _ object name =>
    have hobject := Expr.confined calls object
    .of_evaluateExpr
      (fun _ => (holds_operandValue calls hobject).bind fun _ hv => holds_memberCell hv name)
      fun _ _ => (holds_operandValue calls hobject).bind fun _ hv => holds_memberPlace hv name
  | .withMember _ name =>
    .of_evaluateExpr (fun _ => holds_enclosingObject.bind fun _ hv => holds_memberCell hv name)
      fun _ _ => holds_enclosingObject.bind fun _ hv => holds_memberPlace hv name
  | .call _ callee args =>
    have hcallee := Expr.confined calls callee
    have hargs := Arg.confined calls args
    .of_evaluateExpr (fun _ => holds_applyCall calls hcallee hargs) id
  | .create _ path =>
    .of_evaluateExpr (fun _ => holds_fail (fails_of_head (by simp [String.toList_append]))) id
  | .binary _ op left right =>
    have hleft := Expr.confined calls left
    have hright := Expr.confined calls right
    .of_evaluateExpr (fun c => holds_binary calls hleft hright op _) id
  | .unary _ op e =>
    have he := Expr.confined calls e
    .of_evaluateExpr (fun _ => (holds_operandValue calls he).bind fun _ _ =>
      (holds_computation (Value.computes_applyUnary op)).bind fun _ hv => holds_newCell hv) id

theorem Arg.confined (calls : S.Calls) : ∀ args : List Arg, ∀ arg ∈ args, arg.value.Confined S
  | [], _, h => nomatch h
  | .mk value _ :: rest, arg, h => by
    have hvalue := Expr.confined calls value
    have hrest := Arg.confined calls rest
    obtain rfl | h := List.mem_cons.mp h
    · exact hvalue
    · exact hrest arg h

end

/-! ## Statements -/

/-- A statement stays within a sphere. -/
def Stmt.Confined (S : Sphere) (stmt : Stmt) : Prop :=
  ∀ c, S.Holds (fun n => executeWithin n c stmt) fun _ => True

namespace Evaluator

open Sphere

theorem holds_executeBody : ∀ {body : List Stmt}, (∀ stmt ∈ body, stmt.Confined S) →
    S.Holds (fun n => (ofBound n).executeBody c body) fun _ => True
  | [], _ => holds_pure trivial
  | _ :: _, h => by
    obtain ⟨hstmt, hrest⟩ := List.forall_mem_cons.mp h
    exact ((hstmt c).within _).bind fun _ _ => holds_executeBody hrest

variable (calls : S.Calls) {body : List Stmt} (hbody : ∀ stmt ∈ body, stmt.Confined S)

include hbody

/-- The members are those at the entry; what the body adds to the object is not visited. -/
theorem holds_eachPass (var : Name) {element : CellId} (helement : S.cell element) :
    ∀ {items : List CellId}, (∀ item ∈ items, S.cell item) →
      S.Holds (fun n => (ofBound n).eachPass c var element body items) fun _ => True
  | [], _ => holds_pure trivial
  | _ :: _, h => by
    obtain ⟨hitem, hrest⟩ := List.forall_mem_cons.mp h
    exact (holds_read hitem).bind fun _ hv => (holds_write helement hv fails_readonlyWrite).bind
      fun _ _ => (holds_executeBody hbody).bind fun _ _ => holds_eachPass var helement hrest

include calls

theorem holds_forEach (var : Name) (collection : Expr) (s : Span) :
    S.Holds (fun n => (ofBound n).executeStmt c (.forEach s var collection body)) fun _ => True := by
  refine (holds_operandValue calls (collection.confined calls)).bind fun v hv => ?_
  split
  · exact (holds_look (R := fun items => ∀ item ∈ items, S.cell item)
      fun _ hs _ hitem => hs.store.members hv hitem).bind fun _ hitems =>
        (holds_variableCell var).bind fun _ hcell => holds_eachPass hbody var hcell hitems
  · exact holds_pure trivial
  · exact holds_fail (fails_of_ne nofun)

theorem holds_loopPass (cond : Expr) (untilTrue : Bool) :
    S.Holds (fun n => (ofBound n).loopPass c cond body untilTrue) fun _ => True :=
  (holds_condition calls (cond.confined calls)).bind fun _ _ => Holds.ite (holds_pure trivial)
    ((holds_executeBody hbody).bind fun _ _ => holds_pure trivial)

omit calls in
theorem holds_countPass (var : Name) {counter : CellId} (hcounter : S.cell counter)
    (last step : Float) :
    S.Holds (fun n => (ofBound n).countPass c var counter last step body) fun _ => True :=
  (holds_read hcounter).bind fun _ _ => (holds_computation Value.computes_toNumber).bind fun _ _ =>
    Holds.ite (holds_pure trivial)
      ((holds_executeBody hbody).bind fun _ _ => (holds_read hcounter).bind fun _ _ =>
        (holds_computation Value.computes_toNumber).bind fun _ _ =>
          (holds_write hcounter (v := .number _) trivial fails_readonlyWrite).bind fun _ _ =>
            holds_pure trivial)

theorem holds_count (var : Name) (first last step : Expr) (s : Span) (loops : ¬S.total) :
    S.Holds (fun n => (ofBound n).executeStmt c (.count s var first last step body))
      fun _ => True :=
  (holds_operandNumber calls (first.confined calls)).bind fun _ _ =>
    (holds_operandNumber calls (last.confined calls)).bind fun _ _ =>
      (holds_operandNumber calls (step.confined calls)).bind fun _ _ =>
        (holds_variableCell var).bind fun _ hcounter =>
          (holds_write hcounter (v := .number _) trivial fails_readonlyWrite).bind fun _ _ =>
            Holds.repeatWhile (holds_countPass hbody var hcounter _ _) loops

omit hbody

theorem holds_matchesAny (subject : Value) : ∀ es : List Expr,
    S.Holds (fun n => (ofBound n).matchesAny c subject es) fun _ => True
  | [] => holds_pure trivial
  | e :: rest =>
    (holds_operandValue calls (e.confined calls)).bind fun _ _ =>
      (holds_computation Value.computes_areEqual).bind fun _ _ =>
        Holds.ite (holds_pure trivial) (holds_matchesAny subject rest)

theorem holds_executeCases (subject : Value) : ∀ {cases : List Case},
    (∀ body ∈ cases.map Case.body, ∀ stmt ∈ body, stmt.Confined S) →
      S.Holds (fun n => (ofBound n).executeCases c subject cases) fun _ => True
  | [], _ => holds_pure trivial
  | .mk none _ :: _, h => holds_executeBody (List.forall_mem_cons.mp h).1
  | .mk (some conditions) _ :: _, h => by
    obtain ⟨hbody, hrest⟩ := List.forall_mem_cons.mp h
    exact (holds_matchesAny calls subject conditions).bind fun _ _ =>
      Holds.ite (holds_executeBody hbody) (holds_executeCases subject hrest)

/-- A statement is confined if the statements inside it are and its own code belongs to the
sphere. -/
theorem holds_executeStmt : ∀ {stmt : Stmt}, S.code stmt →
    (∀ body ∈ stmt.bodies, ∀ inner ∈ body, inner.Confined S) →
      (∀ body, stmt.attached? = some body → ∀ inner ∈ body, inner.Confined S) →
        S.Holds (fun n => (ofBound n).executeStmt c stmt) fun _ => True
  | .block .., _, h, _ => holds_executeBody (h _ List.mem_cons_self)
  | .includeFile _ _ (some _), _, _, h => holds_executeBody (h _ rfl)
  | .assign _ target value, _, _, _ =>
    (holds_operandValue calls (value.confined calls)).bind fun _ hv =>
      ((target.confined calls).place _).bind fun _ hcell => holds_write hcell hv fails_readonlyWrite
  | .call _ e, _, _, _ => ((e.confined calls).evaluate _).bind fun _ _ => holds_pure trivial
  | .dim .., _, _, _ | .const .., _, _, _ | .procedure .., _, _, _ | .classDecl .., _, _, _
  | .property .., _, _, _ => holds_pure trivial
  | .redim .., _, _, _ | .exit .., _, _, _ =>
    holds_fail (fails_of_head (by simp [String.toList_append]))
  | .onError _ .resumeNext, _, _, _ | .onError _ .gotoZero, _, _, _ =>
    holds_fail (fails_of_head (by decide))
  | .includeFile _ _ none, hcode, _, _ => holds_fail fun filled => nomatch filled _ hcode
  | .branch _ cond _ _, _, h, _ =>
    (holds_condition calls (cond.confined calls)).bind fun _ _ =>
      Holds.ite (holds_executeBody (h _ (by simp [Stmt.bodies])))
        (holds_executeBody (h _ (by simp [Stmt.bodies])))
  | .loop _ cond _ untilTrue _, hcode, h, _ =>
    have hbody := h _ List.mem_cons_self
    have passes := (holds_loopPass calls hbody cond untilTrue).repeatWhile fun total =>
      nomatch total _ hcode
    Holds.ite ((holds_executeBody hbody).bind fun _ _ => passes) passes
  | .count s var first last step _, hcode, h, _ =>
    holds_count calls (h _ List.mem_cons_self) var first last step s fun total =>
      nomatch total _ hcode
  | .forEach s var collection _, _, h, _ =>
    holds_forEach calls (h _ List.mem_cons_self) var collection s
  | .select _ subject cases, _, h, _ =>
    (holds_operandValue calls (subject.confined calls)).bind fun _ _ =>
      holds_executeCases calls _ h
  | .withObject _ object _, _, h, _ =>
    (holds_operand calls (object.confined calls)).bind fun _ hcell =>
      (holds_executeBody (h _ List.mem_cons_self)).withObject hcell
  | .optionExplicit _ on, _, _, _ =>
    Holds.about (holds_change fun _ hs =>
      hs.withFrames (hs.frames.modify fun _ _ _ found => .inr found))

end Evaluator

theorem Stmt.confined (calls : S.Calls) {stmt : Stmt} (h : stmt.Every S.code) :
    stmt.Confined S := by
  induction h with
  | intro here _ _ inside attached =>
    exact fun c => (Evaluator.holds_executeStmt calls here inside attached).later rfl fun _ => rfl

/-! ## Calls -/

namespace Evaluator

open Sphere

/-- A call runs in the sphere one level deeper, where further calls are confined. -/
theorem holds_runProcedure (calls : S.depth < S.limit → S.deeper.Calls) {decl : Procedure}
    {home : FrameId} {args : List CellId} (hdecl : Stmt.EveryIn S.code decl.body)
    (hargs : ∀ cell ∈ args, S.cell cell) :
    S.Holds (fun n => (ofBound n).runProcedure decl home args) S.cell := by
  refine Holds.withoutObjects (Holds.about (Holds.inCall fun room frame => ?_))
  have hbody (stmt) (h : stmt ∈ decl.body) : stmt.Confined S.deeper :=
    Stmt.confined (calls room) (hdecl stmt h)
  have mark : S.deeper.Holds (fun _ => change (·.mapFrames (·.setProcedure frame decl.name)))
      fun _ => True :=
    holds_change fun _ hs => hs.withFrames (hs.frames.modify fun _ _ _ found => .inr found)
  have bind : S.deeper.Holds (fun _ => bindAll frame decl.params args) fun _ => True :=
    Holds.about (holds_change fun _ hs => hs.bindAll _ fun pair hpair =>
      hargs _ (List.of_mem_zip hpair).2)
  exact (Holds.about mark).bind fun _ _ =>
    (holds_declare (S := S.deeper) (v := .empty) trivial).bind fun _ hresult =>
      bind.bind fun _ _ => (Stmt.holds_declareBody (S := S.deeper) hdecl).bind fun _ _ =>
        (holds_executeBody hbody).bind fun _ _ => holds_pure hresult

end Evaluator

/-- All calls are confined: each one leaves fewer calls to come. -/
theorem Sphere.calls : ∀ (k : Nat) {S : Sphere}, S.limit - S.depth ≤ k → S.Calls
  | 0, S, h => Evaluator.holds_runProcedure fun room => absurd room (by omega)
  | k + 1, S, h => Evaluator.holds_runProcedure fun room =>
    Sphere.calls k (S := S.deeper) (by simp only [Sphere.deeper]; omega)

theorem Evaluator.holds_runBody {body : List Stmt} (hbody : Stmt.EveryIn S.code body) :
    S.Holds (fun n => (ofBound n).runBody c body) fun _ => True :=
  (Stmt.holds_declareBody hbody).bind fun _ _ => holds_executeBody fun _ h =>
    Stmt.confined (Sphere.calls _ (Nat.le_refl _)) (hbody _ h)

/-! ## The sphere of a state -/

namespace State

/-- The cells that can be got hold of in a state: those of the variables of all frames, the objects
of the enclosing `with` blocks, the members of objects in such cells, and what native functions in such
cells hold. -/
inductive Reaches (s : State) : CellId → Prop
  | variable {frame : FrameId} {name : String} {cell : CellId}
      (bound : (s.frames.get frame).bindings.get? name = some cell) : Reaches s cell
  | enclosing {cell : CellId} (h : cell ∈ s.objects) : Reaches s cell
  | member {cell inner : CellId} {id : ObjectId} (h : Reaches s cell)
      (object : s.store.read cell = .object id) (h' : inner ∈ (s.store.members id).values) :
      Reaches s inner
  | held {cell inner : CellId} {id : FunctionId} {name : Name} {service : Service}
      {held : List CellId} (h : Reaches s cell) (function : s.store.read cell = .function id)
      (stored : s.store.function? id = some (.native name service held)) (h' : inner ∈ held) :
      Reaches s inner

/-- A procedure is the value of a cell that can be got hold of. -/
def Stores (s : State) (decl : Procedure) : Prop :=
  ∃ cell id home, s.Reaches cell ∧ s.store.read cell = .function id ∧
    s.store.function? id = some (.script decl home)

/-- What can be got hold of in a state, and whatever is made later. -/
def sphere (s : State) (code : Stmt → Prop) : Sphere where
  code := code
  cell id := s.Reaches id ∨ s.store.cells.size ≤ id.index
  object id :=
    (∃ cell, s.Reaches cell ∧ s.store.read cell = .object id) ∨ s.store.objects.size ≤ id.index
  function id :=
    (∃ cell, s.Reaches cell ∧ s.store.read cell = .function id) ∨
      s.store.functions.size ≤ id.index
  depth := s.depth
  limit := s.limit
  content := s.store.cell

theorem within_sphere {s : State} {code : Stmt → Prop}
    (h : ∀ decl, s.Stores decl → Stmt.EveryIn code decl.body) : s.Within (s.sphere code) where
  store := by
    refine ⟨?_, ?_, ?_, fun _ => .inr, fun _ => .inr, fun _ => .inr, fun _ => rfl⟩
    · rintro id (reached | beyond)
      · cases hv : s.store.read id with
        | object _ => exact .inl ⟨id, reached, hv⟩
        | function _ => exact .inl ⟨id, reached, hv⟩
        | _ => trivial
      · have unmade : s.store.read id = .empty := by
          simp only [Store.read, Store.cell, Array.getElem?_eq_none beyond]
          rfl
        rw [unmade]
        trivial
    · rintro id cell (⟨owner, reached, hv⟩ | beyond) hcell
      · exact .inl (.member reached hv hcell)
      · simp only [Store.members, Array.getElem?_eq_none beyond] at hcell
        cases hcell
    · rintro id f (⟨cell, reached, hv⟩ | beyond) stored
      · cases f with
        | native name service held => exact fun inner hinner => .inl (.held reached hv stored hinner)
        | script decl home => exact h decl ⟨cell, id, home, reached, hv, stored⟩
      · simp only [Store.function?, Array.getElem?_eq_none beyond] at stored
        cases stored
  frames := ⟨fun _ _ _ bound => .inl (.variable bound)⟩
  objects _ h := .inl (.enclosing h)
  depth := rfl
  limit := rfl

end State

namespace Evaluator

/-- **A script without loops ends**, with a result or with a fault, whatever its procedures call and
however few nested calls are allowed: from some bound on, all evaluators run it to one and the same
end. -/
theorem settles_ofBound (c : FrameId) (s : State) (body : List Stmt)
    (hbody : Stmt.EveryIn (fun stmt => stmt.isLoop = false) body)
    (hstored : ∀ decl, s.Stores decl → Stmt.EveryIn (fun stmt => stmt.isLoop = false) decl.body) :
    ∃ o, o ≠ .exhausted ∧ ∃ bound, ∀ n, bound ≤ n → (ofBound n).runBody c body s = o :=
  (holds_runBody (S := s.sphere _) hbody s (State.within_sphere hstored)).settles fun _ h => h

/-- A procedure that calls itself again and again is stopped by the limit on nested calls. -/
theorem settles_ofBound_recursion :
    let again : Stmt := .call default (.call default (.var default (Name.ofString "again")) [])
    let body : List Stmt :=
      [.procedure default (.mk (Name.ofString "again") .sub [] [again] .isPublic), again]
    let s := (State.start default 7).pushRoot.2
    Stmt.EveryIn (fun stmt => stmt.isLoop = false) body ∧
      (∀ decl, s.Stores decl → Stmt.EveryIn (fun stmt => stmt.isLoop = false) decl.body) ∧
        (∃ o, o ≠ .exhausted ∧ ∃ bound, ∀ n, bound ≤ n → (ofBound n).runBody ⟨0⟩ body s = o) ∧
          ((ofBound 20).runBody ⟨0⟩ body s).fault? = some ⟨.stackOverflow 7, some default⟩ := by
  intro again body s
  have hagain : Stmt.EveryIn (fun stmt => stmt.isLoop = false) [again] :=
    Stmt.everyIn_cons.mpr ⟨.leaf rfl rfl rfl, Stmt.everyIn_nil⟩
  have hbody : Stmt.EveryIn (fun stmt => stmt.isLoop = false) body := by
    refine Stmt.everyIn_cons.mpr ⟨.intro rfl (fun inner h => ?_) nofun, hagain⟩
    rw [List.mem_singleton.mp h]
    exact hagain
  have hstored (decl) : s.Stores decl →
      Stmt.EveryIn (fun stmt => stmt.isLoop = false) decl.body := by
    rintro ⟨cell, id, home, -, -, stored⟩
    nomatch stored.symm.trans (Array.getElem?_empty (α := Callable))
  exact ⟨hbody, hstored, settles_ofBound ⟨0⟩ s body hbody hstored, by decide +kernel⟩

end Evaluator

end PageScript
