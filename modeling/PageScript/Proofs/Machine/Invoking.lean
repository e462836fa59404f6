import PageScript.Proofs.Machine.Enclosing
import PageScript.Proofs.Machine.Recoding

/-!
# Proofs/Machine/Invoking — a bare reference to a procedure and its call

A bare reference to a procedure without parameters calls it where its value is wanted, so `()` may be
written behind it or left out.
-/

namespace PageScript

open Run
open Evaluator (ofBound SharesPlace)

variable {P : Expr → Prop} {k : Slack}

/-! ## References that call -/

namespace Stage

/-- A reference of the kind whose value is wanted calls a procedure: it is not the name of the
procedure that runs, and if it evaluates to a cell, a procedure without parameters is in there.  None
is handed over itself. -/
def Invokes (P : Expr → Prop) (stage : Stage) : Prop :=
  match stage.task with
  | .operand e => P e →
    (∀ span name, e = .var span name → (stage.state.frames.get stage.frame).procedure ≠ some name) ∧
      ∀ n cell t, (ofBound n).evaluate stage.frame e stage.state = .done cell t →
        (t.store.bareCall? (t.store.read cell)).isSome
  | .share e => ¬P e
  | _ => True

/-- Wherever the run comes to, the references of the kind call procedures. -/
def AllInvoke (P : Expr → Prop) (a : Stage) : Prop := ∀ b, a.Comes b → b.Invokes P

variable {a b : Stage}

theorem AllInvoke.here (h : a.AllInvoke P) : a.Invokes P := h a .refl

theorem AllInvoke.turn (h : a.AllInvoke P) (turns : a.Turns b) : b.AllInvoke P :=
  fun d comes => h d (.head (.inl turns) comes)

theorem AllInvoke.enter (h : a.AllInvoke P) (enters : a.Enters b) : b.AllInvoke P :=
  fun d comes => h d (.head (.inr enters) comes)

/-- A run comes to what its parts and the bodies that it enters come to. -/
theorem AllInvoke.of_parts (here : a.Invokes P) (turns : ∀ b, a.Turns b → b.AllInvoke P)
    (enters : ∀ b, a.Enters b → b.AllInvoke P) : a.AllInvoke P := by
  intro b comes
  obtain rfl | ⟨d, step, comes⟩ := comes.cases_head
  · exact here
  · exact step.elim (fun h => turns d h b comes) (fun h => enters d h b comes)

end Stage

/-! ## Procedures -/

namespace Evaluator

variable {n : Nat} {ev : Evaluator} {c : FrameId} {s t : State}

/-- The parts of expressions and statements end alike: those that the evaluator at a bound runs, and
those that another one runs. -/
structure Recodes (P : Expr → Prop) (k : Slack) (n : Nat) (ev : Evaluator) : Prop where
  evaluate : ∀ {c : FrameId} {e e' : Expr} {s t : State}, e.Applies P e' → s.Recodes P t →
    Stage.AllInvoke P ⟨c, .evaluate e, s⟩ →
      ((ofBound n).evaluate c e s).Recodes P k (ev.evaluate c e' t)
  execute : ∀ {c : FrameId} {stmt stmt' : Stmt} {s t : State}, stmt.Applies P stmt' →
    s.Recodes P t → Stage.AllInvoke P ⟨c, .execute stmt, s⟩ →
      ((ofBound n).execute c stmt s).Recodes P k (ev.execute c stmt' t)
  left : k.left ∨ ev.passes ≤ n
  right : k.right ∨ n ≤ ev.passes

theorem done_of_within_done {m : Run Unit} {place : Span} (h : Run.within place m s = .done () t) :
    m s = .done () t := by
  rw [within_eq_map] at h
  cases hr : m s <;> rw [hr] at h <;> cases h
  rfl

/-- The operand of what is no reference is its cell. -/
theorem operand_of_isReference_eq_false {e : Expr} (other : e.isReference = false) :
    ev.operand c e s = ev.evaluate c e s := by
  have operand : ev.operand c e s = (ev.evaluate c e >>= fun cell => pure cell) s :=
    bind_congr_of_done fun _ _ _ => by rw [other]; rfl
  rw [operand]
  cases hr : ev.evaluate c e s with
  | done cell t => exact bind_of_done hr
  | failed f t => exact bind_of_failed hr
  | exhausted => exact bind_of_exhausted hr

/-- The name of the running procedure calls it again. -/
theorem calledValue_of_recursionCell?_eq_some {callee : Expr} {cell : CellId}
    (own : recursionCell? s c callee = some cell) :
    ev.calledValue c callee s = .done (s.store.read cell) s := by
  refine (bind_of_done (a := some cell) (t := s) ?_).trans rfl
  exact congrArg (Outcome.done · s) own

/-- The callee is evaluated to a procedure without parameters, which is run. -/
theorem applyCall_nil {callee : Expr} {id : FunctionId} {decl : Procedure} {home : FrameId}
    (called : ev.calledValue c callee s = .done (.function id) t)
    (found : t.store.function? id = some (.script decl home)) (none : decl.params = []) :
    ev.applyCall c callee [] s = ev.runProcedure decl home [] t := by
  have passed : ev.passedAll c (decl.params.zip []) t = .done [] t := by
    rw [List.zip_nil_right]
    rfl
  have look : Run.look (callable? · (.function id)) t = .done (some (.script decl home)) t :=
    congrArg (Outcome.done · t) found
  have fits : ([] : List Arg).length = decl.params.length := congrArg List.length none.symm
  rw [applyCall, bind_of_done called, bind_of_done look]
  exact call_of_passedAll fits passed

/-- An argument that is handed over itself is evaluated like the target of an assignment. -/
theorem passed_of_shares {param : Param} {arg : Arg} (shares : SharesPlace param arg) :
    ev.passed c param arg = ev.place c arg.value :=
  if_pos (by simp [shares.1, shares.2.1, shares.2.2])

/-- Any other argument is evaluated where its value is wanted, and the value is copied. -/
theorem passed_of_copies {param : Param} {arg : Arg} (copies : ¬SharesPlace param arg) :
    ev.passed c param arg = (ev.operandValue c arg.value >>= Run.newCell) :=
  if_neg (by simpa [SharesPlace, and_assoc] using copies)

/-- Every operator but `is` wants the values of its operands. -/
theorem evaluateExpr_binary {op : BinaryOp} (hop : op ≠ .is) (place : Span) (left right : Expr) :
    ev.evaluateExpr c (.binary place op left right) = (do
      let left ← ev.operandValue c left
      let right ← ev.operandValue c right
      Run.ofExcept (Value.applyBinary op left right) >>= Run.newCell) := by
  cases op <;> first | rfl | exact absurd rfl hop

namespace Recodes

variable (K : ev.Recodes P k n)

include K

theorem executeBody : ∀ {body body' : List Stmt}, Stmt.AppliesAll P body body' → ∀ {s t : State},
    s.Recodes P t → Stage.AllInvoke P ⟨c, .body body, s⟩ →
      ((ofBound n).executeBody c body s).Recodes P k (ev.executeBody c body' t)
  | _, _, .nil, _, _, related, _ => recodes_pure () related
  | _, _, .cons h hrest, _, _, related, inv =>
    recodes_bind (recodes_within (K.execute h related (inv.turn .first)) _ _)
      fun _ _ _ hr _ related =>
        executeBody hrest related (inv.turn (.further ⟨n, done_of_within_done hr⟩))

theorem runProcedure {decl decl' : Procedure} {home : FrameId} {cells : List CellId}
    (h : decl.Applies P decl') (related : s.Recodes P t)
    (inv : ∀ u, s.isFull = false →
      Stmt.declareBody s.nextFrame decl.body (s.calling decl home cells) = .done () u →
        Stage.AllInvoke P ⟨s.nextFrame, .body decl.body, u⟩) :
    ((ofBound n).runProcedure decl home cells s).Recodes P k
      (ev.runProcedure decl' home cells t) := by
  cases full : s.isFull with
  | true =>
    rw [runProcedure_of_isFull full, runProcedure_of_isFull (related.isFull_eq.trans full),
      related.limit_eq]
    exact .failed ⟨.same, rfl⟩ related
  | false =>
    have next : t.nextFrame = s.nextFrame := related.eq_of (f := State.nextFrame) fun _ => rfl
    have result : t.store.cells.size = s.store.cells.size :=
      related.eq_of (f := (·.store.cells.size)) fun _ => rfl
    rw [runProcedure_of_room full, runProcedure_of_room (related.isFull_eq.trans full), next, result,
      related.objects_eq]
    have calling := related.calling h home cells
    have body : ((ofBound n).runBody s.nextFrame decl.body (s.calling decl home cells)).Recodes P k
        (ev.runBody s.nextFrame decl'.body (t.calling decl' home cells)) := by
      cases h with
      | intro h =>
        exact recodes_bind (h.recodes_declareBody calling) fun _ u _ hr _ related =>
          K.executeBody h related (inv u full hr)
    exact (recodes_bind body fun _ _ _ _ _ => recodes_pure _).map
      (fun h => (h.leave s.nextFrame).withObjects s.objects) id

/-- A bare reference that calls a procedure does what its call does, which is one level deeper. -/
theorem operand_applied {e e' : Expr} (chosen : P e) (reference : e.isReference = true)
    (h : e.Applies P e') (related : s.Recodes P t) (inv : Stage.AllInvoke P ⟨c, .operand e, s⟩)
    (place : Span) :
    ((ofBound n).operand c e s).Recodes P k (ev.evaluateExpr c (.call place e' []) t) := by
  obtain ⟨other, calls⟩ := inv.here chosen
  have apart : recursionCell? t c e' = none := by
    cases h with
    | var => exact if_neg (related.frames_eq ▸ other _ _ rfl)
    | _ => rfl
  have callee : ev.calledValue c e' t = (ev.evaluate c e' >>= fun cell => Run.read cell) t :=
    calledValue_of_recursionCell? apart
  have evaluated := K.evaluate h related (inv.turn .operand)
  generalize hr : (ofBound n).evaluate c e s = o, hr' : ev.evaluate c e' t = o' at evaluated
  cases evaluated with
  | @done cell u v related =>
    obtain ⟨⟨decl, home⟩, found⟩ := Option.isSome_iff_exists.mp (calls n cell u hr)
    obtain ⟨id, value, function, none⟩ := Store.exists_of_bareCall? found
    have called : ev.calledValue c e' t = .done (.function id) v := by
      rw [callee, bind_of_done hr', ← value, ← related.read_eq cell]
      rfl
    have script := related.function? id
    rw [function] at script
    obtain ⟨f, hf⟩ : ∃ f, v.store.function? id = f := ⟨_, rfl⟩
    rw [hf] at script
    cases script with
    | some hcallable =>
      cases hcallable with
      | @script _ decl' _ hdecl =>
        have right : ev.evaluateExpr c (.call place e' []) t = ev.runProcedure decl' home [] v :=
          applyCall_nil called hf (hdecl.params_eq.trans none)
        rw [operand_of_evaluate reference hr found, right]
        exact K.runProcedure hdecl related fun w room declared =>
          inv.enter (.bareCall reference ⟨n, hr⟩ found room declared)
  | failed fault related =>
    have right : ev.evaluateExpr c (.call place e' []) t = .failed _ _ :=
      bind_of_failed (callee.trans (bind_of_failed hr'))
    rw [operand, bind_of_failed hr, right]
    exact .failed fault related
  | exhausted =>
    have right : ev.evaluateExpr c (.call place e' []) t = .exhausted :=
      bind_of_exhausted (callee.trans (bind_of_exhausted hr'))
    rw [operand, bind_of_exhausted hr, right]
    exact .exhausted
  | left slack =>
    rw [operand, bind_of_exhausted hr]
    exact .left slack
  | right slack =>
    have right : ev.evaluateExpr c (.call place e' []) t = .exhausted :=
      bind_of_exhausted (callee.trans (bind_of_exhausted hr'))
    rw [right]
    exact .right slack

end Recodes

/-- The parts of expressions and statements end alike, and a bare reference of the kind, where its
value is wanted, ends like its call. -/
structure Invokes (P : Expr → Prop) (k : Slack) (n : Nat) (ev : Evaluator) : Prop
    extends ev.Recodes P k n where
  applied : ∀ {c : FrameId} {e e' : Expr} {s t : State} (place : Span), P e → e.isReference = true →
    e.Applies P e' → s.Recodes P t → Stage.AllInvoke P ⟨c, .operand e, s⟩ →
      ((ofBound n).operand c e s).Recodes P k (ev.evaluate c (.call place e' []) t)

namespace Invokes

variable (K : ev.Invokes P k n)

include K

theorem operand {e e' : Expr} (h : e.AppliesOperand P e') (related : s.Recodes P t)
    (inv : Stage.AllInvoke P ⟨c, .operand e, s⟩) :
    ((ofBound n).operand c e s).Recodes P k (ev.operand c e' t) := by
  cases h with
  | applied chosen reference h =>
    rw [operand_of_isReference_eq_false (e := .call _ _ _) rfl]
    exact K.applied _ chosen reference h related inv
  | same h =>
    refine recodes_bind (K.evaluate h related (inv.turn .operand)) fun cell u v hcell _ related => ?_
    rw [← h.isReference_eq]
    split
    · rename_i reference
      have found := related.bareCall? (u.store.read cell)
      refine recodes_bind_look ?_
      rw [related.read_eq]
      generalize hf : u.store.bareCall? (u.store.read cell) = f,
        v.store.bareCall? (u.store.read cell) = f' at found
      cases found with
      | none => exact recodes_pure cell related
      | @some callee callee' hcallee =>
        obtain ⟨decl, home⟩ := callee
        obtain ⟨decl', home'⟩ := callee'
        obtain ⟨hdecl, rfl⟩ := hcallee
        exact K.runProcedure hdecl related fun w room declared =>
          inv.enter (.bareCall reference ⟨n, hcell⟩ hf room declared)
    · exact recodes_pure cell related

theorem operandValue {e e' : Expr} (h : e.AppliesOperand P e') (related : s.Recodes P t)
    (inv : Stage.AllInvoke P ⟨c, .operand e, s⟩) :
    ((ofBound n).operandValue c e s).Recodes P k (ev.operandValue c e' t) :=
  recodes_bind (K.operand h related inv) fun _ _ _ _ _ => recodes_of_blind (blind_read _)

theorem operandNumber {e e' : Expr} (h : e.AppliesOperand P e') (related : s.Recodes P t)
    (inv : Stage.AllInvoke P ⟨c, .operand e, s⟩) :
    ((ofBound n).operandNumber c e s).Recodes P k (ev.operandNumber c e' t) :=
  recodes_bind (K.operandValue h related inv) fun _ _ _ _ _ => recodes_of_blind (blind_ofExcept _)

theorem condition {e e' : Expr} (h : e.AppliesOperand P e') (related : s.Recodes P t)
    (inv : Stage.AllInvoke P ⟨c, .operand e, s⟩) :
    ((ofBound n).condition c e s).Recodes P k (ev.condition c e' t) :=
  recodes_bind (K.operandValue h related inv) fun _ _ _ _ _ => recodes_of_blind (blind_ofExcept _)

/-! ## Places and arguments -/

theorem place {e e' : Expr} (h : e.Applies P e') (related : s.Recodes P t)
    (inv : Stage.AllInvoke P ⟨c, .target e, s⟩) :
    ((ofBound n).place c e s).Recodes P k (ev.place c e' t) := by
  cases h with
  | member h =>
    exact recodes_bind (K.operandValue h related (inv.turn .targetObject)) fun _ _ _ _ _ =>
      recodes_of_blind (blind_memberPlace _ _)
  | withMember =>
    exact recodes_of_blind (blind_enclosingObject.bind fun _ => blind_memberPlace _ _) related
  | literal => exact K.evaluate .literal related (inv.turn (.target nofun nofun))
  | var => exact K.evaluate .var related (inv.turn (.target nofun nofun))
  | create => exact K.evaluate .create related (inv.turn (.target nofun nofun))
  | call h hargs => exact K.evaluate (.call h hargs) related (inv.turn (.target nofun nofun))
  | is hleft hright => exact K.evaluate (.is hleft hright) related (inv.turn (.target nofun nofun))
  | binary hop hleft hright =>
    exact K.evaluate (.binary hop hleft hright) related (inv.turn (.target nofun nofun))
  | unary h => exact K.evaluate (.unary h) related (inv.turn (.target nofun nofun))

theorem passed {param : Param} {value value' : Expr} {byValue : Bool}
    {rest : List (Param × Arg)} (h : value.AppliesOperand P value') (related : s.Recodes P t)
    (inv : Stage.AllInvoke P ⟨c, .passing ((param, .mk value byValue) :: rest), s⟩) :
    ((ofBound n).passed c param (.mk value byValue) s).Recodes P k
      (ev.passed c param (.mk value' byValue) t) := by
  by_cases shares : SharesPlace param (.mk value byValue)
  · have shares' : SharesPlace param (.mk value' byValue) :=
      ⟨shares.1, shares.2.1, h.isPlace_eq ▸ shares.2.2⟩
    have inv := inv.turn (.share shares)
    rw [passed_of_shares shares, passed_of_shares shares']
    cases h with
    | applied chosen => exact absurd chosen inv.here
    | same h => exact K.place h related (inv.turn .shared)
  · have copies' : ¬SharesPlace param (.mk value' byValue) := fun shares' =>
      shares ⟨shares'.1, shares'.2.1, h.isPlace_eq ▸ shares'.2.2⟩
    rw [passed_of_copies shares, passed_of_copies copies']
    exact recodes_bind (K.operandValue h related (inv.turn (.copy shares))) fun _ _ _ _ _ =>
      recodes_of_blind (blind_newCell _)

theorem passedAll : ∀ {args args' : List Arg}, Expr.AppliesArgs P args args' →
    ∀ {params : List Param} {s t : State}, s.Recodes P t →
      Stage.AllInvoke P ⟨c, .passing (params.zip args), s⟩ →
        ((ofBound n).passedAll c (params.zip args) s).Recodes P k
          (ev.passedAll c (params.zip args') t)
  | _, _, _, [], _, _, related, _ => recodes_pure [] related
  | _, _, .nil, _ :: _, _, _, related, _ => recodes_pure [] related
  | _, _, .cons h hrest, _ :: _, _, _, related, inv =>
    recodes_bind (K.passed h related inv) fun _ _ _ hfirst _ related =>
      recodes_bind (passedAll hrest related (inv.turn (.passed ⟨n, hfirst⟩))) fun _ _ _ _ _ =>
        recodes_pure _

theorem operands : ∀ {args args' : List Arg}, Expr.AppliesArgs P args args' → ∀ {s t : State},
    s.Recodes P t → Stage.AllInvoke P ⟨c, .operands args, s⟩ →
      ((ofBound n).operands c args s).Recodes P k (ev.operands c args' t)
  | _, _, .nil, _, _, related, _ => recodes_pure [] related
  | _, _, .cons h hrest, _, _, related, inv =>
    recodes_bind (K.operand h related (inv.turn .argument)) fun _ _ _ hfirst _ related =>
      recodes_bind (operands hrest related (inv.turn (.arguments ⟨n, hfirst⟩))) fun _ _ _ _ _ =>
        recodes_pure _

/-! ## Calls and expressions -/

theorem calledValue {callee callee' : Expr} {args : List Arg} {span : Span}
    (h : callee.Applies P callee') (related : s.Recodes P t)
    (inv : Stage.AllInvoke P ⟨c, .evaluate (.call span callee args), s⟩) :
    ((ofBound n).calledValue c callee s).Recodes P k (ev.calledValue c callee' t) := by
  have same : recursionCell? t c callee' = recursionCell? s c callee := by
    cases h with
    | var => exact related.eq_of (f := (recursionCell? · c (.var default _))) fun _ => rfl
    | _ => rfl
  cases hcell : recursionCell? s c callee with
  | some cell =>
    rw [calledValue_of_recursionCell?_eq_some hcell,
      calledValue_of_recursionCell?_eq_some (same.trans hcell), related.read_eq]
    exact .done related
  | none =>
    rw [calledValue_of_recursionCell? hcell, calledValue_of_recursionCell? (same.trans hcell)]
    exact recodes_bind (K.evaluate h related (inv.turn (.callee hcell))) fun _ _ _ _ _ =>
      recodes_of_blind (blind_read _)

theorem applyCall {callee callee' : Expr} {args args' : List Arg} {span : Span}
    (h : callee.Applies P callee') (hargs : Expr.AppliesArgs P args args') (related : s.Recodes P t)
    (inv : Stage.AllInvoke P ⟨c, .evaluate (.call span callee args), s⟩) :
    ((ofBound n).applyCall c callee args s).Recodes P k (ev.applyCall c callee' args' t) := by
  refine recodes_bind (K.calledValue h related inv) fun value u v hvalue _ related => ?_
  have found : Option.Rel (Callable.Applies P) (callable? u value) (callable? v value) := by
    unfold callable?
    split
    · exact related.function? _
    · exact .none
  refine recodes_bind_look ?_
  generalize hf : callable? u value = f, callable? v value = f' at found
  cases found with
  | none => exact recodes_fail .typeMismatch related
  | some hcallable =>
    cases hcallable with
    | native =>
      exact recodes_bind (K.operands hargs related (inv.turn (.operands ⟨n, hvalue⟩ hf)))
        fun _ _ _ _ _ => Service.recodes_call _ _ _
    | @script decl decl' home hdecl =>
      simp only [Evaluator.call, ← hargs.length_eq, hdecl.params_eq, hdecl.name_eq]
      split
      · exact recodes_fail .same related
      · rename_i fits
        have fits : args.length = decl.params.length := Decidable.of_not_not fits
        refine recodes_bind (K.passedAll hargs related (inv.turn (.passing ⟨n, hvalue⟩ hf fits)))
          fun cells w _ hcells _ related => ?_
        exact K.runProcedure hdecl related fun _ room declared =>
          inv.enter (.call ⟨n, hvalue⟩ hf fits ⟨n, hcells⟩ room declared)

theorem evaluateExpr {e e' : Expr} (h : e.Applies P e') (related : s.Recodes P t)
    (inv : Stage.AllInvoke P ⟨c, .evaluate e, s⟩) :
    ((ofBound n).evaluateExpr c e s).Recodes P k (ev.evaluateExpr c e' t) := by
  cases h with
  | literal => exact recodes_of_blind (blind_newCell _) related
  | var => exact recodes_of_blind (blind_variableCell _) related
  | member h =>
    exact recodes_bind (K.operandValue h related (inv.turn .object)) fun _ _ _ _ _ =>
      recodes_of_blind (blind_memberCell _ _)
  | withMember =>
    exact recodes_of_blind (blind_enclosingObject.bind fun _ => blind_memberCell _ _) related
  | call h hargs => exact K.applyCall h hargs related inv
  | create => exact recodes_fail .same related
  | is hleft hright =>
    refine recodes_bind (K.evaluate hleft related (inv.turn .isLeft)) fun _ _ _ hl _ related => ?_
    refine recodes_bind_look ?_
    rw [related.read_eq]
    refine recodes_bind (K.evaluate hright related (inv.turn (.isRight ⟨n, hl⟩))) fun _ _ _ _ _ h => ?_
    exact recodes_of_blind ((blind_read _).bind fun _ => (blind_ofExcept _).bind fun _ =>
      blind_newCell _) h
  | @binary _ _ op _ _ _ _ hop hleft hright =>
    rw [evaluateExpr_binary hop, evaluateExpr_binary hop]
    refine recodes_bind (K.operandValue hleft related (inv.turn (.left hop))) fun _ _ _ hl _ related => ?_
    refine recodes_bind (K.operandValue hright related (inv.turn (.right hop ⟨n, hl⟩)))
      fun _ _ _ _ _ h => ?_
    exact recodes_of_blind ((blind_ofExcept _).bind fun _ => blind_newCell _) h
  | unary h =>
    exact recodes_bind (K.operandValue h related (inv.turn .unary)) fun _ _ _ _ _ =>
      recodes_of_blind ((blind_ofExcept _).bind fun _ => blind_newCell _)

/-! ## Loops and cases -/

theorem loopPass {cond cond' : Expr} {body body' : List Stmt} {untilTrue : Bool} {span : Span}
    (hcond : cond.AppliesOperand P cond') (h : Stmt.AppliesAll P body body') (related : s.Recodes P t)
    (inv : Stage.AllInvoke P ⟨c, .execute (.loop span cond body untilTrue false), s⟩) :
    ((ofBound n).loopPass c cond body untilTrue s).Recodes P k
      (ev.loopPass c cond' body' untilTrue t) := by
  refine recodes_bind (K.condition hcond related (inv.turn .test)) fun holds _ _ hholds _ related => ?_
  split
  · exact recodes_pure false related
  · rename_i due
    exact recodes_bind (K.executeBody h related (inv.turn (.pass ⟨n, hholds⟩ (by simpa using due))))
      fun _ _ _ _ _ => recodes_pure true

theorem loop {cond cond' : Expr} {body body' : List Stmt} {untilTrue : Bool} {span : Span}
    (hcond : cond.AppliesOperand P cond') (h : Stmt.AppliesAll P body body') (related : s.Recodes P t)
    (inv : Stage.AllInvoke P ⟨c, .execute (.loop span cond body untilTrue false), s⟩) :
    (Run.repeatWhile n ((ofBound n).loopPass c cond body untilTrue) s).Recodes P k
      (Run.repeatWhile ev.passes (ev.loopPass c cond' body' untilTrue) t) :=
  recodes_repeatWhile (fun inv related => K.loopPass hcond h related inv)
    (fun inv again => inv.turn (.again ⟨n, again⟩)) K.left K.right inv related

theorem countPass {var : Name} {counter : CellId} {last step : Float} {body body' : List Stmt}
    (h : Stmt.AppliesAll P body body') (related : s.Recodes P t)
    (inv : Stage.AllInvoke P ⟨c, .counting var counter last step body, s⟩) :
    ((ofBound n).countPass c var counter last step body s).Recodes P k
      (ev.countPass c var counter last step body' t) := by
  refine recodes_bind_look ?_
  rw [related.read_eq]
  refine recodes_bind_blind (blind_ofExcept _) related fun current u v hcurrent related' => ?_
  obtain ⟨hcurrent, rfl⟩ := done_of_ofExcept_done hcurrent
  by_cases past : if step ≥ 0 then current > last else current < last
  · rw [if_pos past, if_pos past]
    exact recodes_pure false related'
  · rw [if_neg past, if_neg past]
    refine recodes_bind (K.executeBody h related' (inv.turn (.countPass hcurrent past)))
      fun _ _ _ _ _ related => ?_
    refine recodes_bind_look ?_
    rw [related.read_eq]
    exact recodes_of_blind ((blind_ofExcept _).bind fun _ => (blind_write _ _ _).bind fun _ =>
      blind_pure _) related

theorem count {var : Name} {counter : CellId} {last step : Float} {body body' : List Stmt}
    (h : Stmt.AppliesAll P body body') (related : s.Recodes P t)
    (inv : Stage.AllInvoke P ⟨c, .counting var counter last step body, s⟩) :
    (Run.repeatWhile n ((ofBound n).countPass c var counter last step body) s).Recodes P k
      (Run.repeatWhile ev.passes (ev.countPass c var counter last step body') t) :=
  recodes_repeatWhile (fun inv related => K.countPass h related inv)
    (fun inv again => inv.turn (.countAgain ⟨n, again⟩)) K.left K.right inv related

theorem eachPass {var : Name} {element : CellId} {body body' : List Stmt}
    (h : Stmt.AppliesAll P body body') : ∀ {items : List CellId} {s t : State}, s.Recodes P t →
      Stage.AllInvoke P ⟨c, .each var element body items, s⟩ →
        ((ofBound n).eachPass c var element body items s).Recodes P k
          (ev.eachPass c var element body' items t)
  | [], _, _, related, _ => recodes_pure () related
  | item :: items, s, t, related, inv => by
    refine recodes_bind_look ?_
    rw [related.read_eq]
    refine recodes_bind_blind (blind_write _ _ _) related fun _ u v hwrite related => ?_
    obtain ⟨writable, rfl⟩ := done_of_write_done hwrite
    refine recodes_bind (K.executeBody h related (inv.turn (.eachPass writable)))
      fun _ _ _ hbody _ related => ?_
    exact eachPass h related (inv.turn (.eachNext writable ⟨n, hbody⟩))

theorem matchesAny {subject : Value} : ∀ {conditions conditions' : List Expr},
    Expr.AppliesOperands P conditions conditions' → ∀ {s t : State}, s.Recodes P t →
      Stage.AllInvoke P ⟨c, .matching subject conditions, s⟩ →
        ((ofBound n).matchesAny c subject conditions s).Recodes P k
          (ev.matchesAny c subject conditions' t)
  | _, _, .nil, _, _, related, _ => recodes_pure false related
  | _, _, .cons h hrest, _, _, related, inv => by
    refine recodes_bind (K.operandValue h related (inv.turn .compared)) fun _ _ _ hvalue _ related => ?_
    refine recodes_bind_blind (blind_ofExcept _) related fun equal u v hequal related' => ?_
    obtain ⟨differ, rfl⟩ := done_of_ofExcept_done hequal
    cases equal with
    | true => exact recodes_pure true related'
    | false => exact matchesAny hrest related' (inv.turn (.different ⟨n, hvalue⟩ differ))

theorem executeCases {subject : Value} : ∀ {cases cases' : List Case},
    Stmt.AppliesCases P cases cases' → ∀ {s t : State}, s.Recodes P t →
      Stage.AllInvoke P ⟨c, .cases subject cases, s⟩ →
        ((ofBound n).executeCases c subject cases s).Recodes P k (ev.executeCases c subject cases' t)
  | _, _, .nil, _, _, related, _ => recodes_pure () related
  | _, _, .otherwise h _, _, _, related, inv => K.executeBody h related (inv.turn .otherwise)
  | _, _, .cons hconditions h hrest, _, _, related, inv => by
    refine recodes_bind (K.matchesAny hconditions related (inv.turn .matching))
      fun selected _ _ hmatch _ related => ?_
    cases selected with
    | true => exact K.executeBody h related (inv.turn (.selected ⟨n, hmatch⟩))
    | false => exact executeCases hrest related (inv.turn (.unselected ⟨n, hmatch⟩))

/-! ## Statements -/

theorem executeStmt {stmt stmt' : Stmt} (h : stmt.Applies P stmt') (related : s.Recodes P t)
    (inv : Stage.AllInvoke P ⟨c, .execute stmt, s⟩) :
    ((ofBound n).executeStmt c stmt s).Recodes P k (ev.executeStmt c stmt' t) := by
  cases h with
  | block h => exact K.executeBody h related (inv.turn .block)
  | assign htarget hvalue =>
    refine recodes_bind (K.operandValue hvalue related (inv.turn .value))
      fun _ _ _ evaluated _ related => ?_
    refine recodes_bind (K.place htarget related (inv.turn (.assigned ⟨n, evaluated⟩)))
      fun _ _ _ _ _ related => ?_
    exact recodes_write .readonlyWrite related
  | call h =>
    exact recodes_bind (K.evaluate h related (inv.turn .call)) fun _ _ _ _ _ => recodes_pure ()
  | const | dim | procedure | classDecl | property => exact recodes_pure () related
  | redim => exact recodes_fail .same related
  | branch hcond hthen helse =>
    refine recodes_bind (K.condition hcond related (inv.turn .condition))
      fun holds _ _ hholds _ related => ?_
    have inv := inv.turn (.branch ⟨n, hholds⟩)
    cases holds with
    | true => exact K.executeBody hthen related inv
    | false => exact K.executeBody helse related inv
  | @loop _ _ _ _ _ _ _ testsAfter hcond h =>
    cases testsAfter with
    | true =>
      exact recodes_bind (K.executeBody h related (inv.turn .untested)) fun _ _ _ hbody _ related =>
        K.loop hcond h related (inv.turn (.tested ⟨n, hbody⟩))
    | false => exact K.loop hcond h related inv
  | count hfirst hlast hstep h =>
    refine recodes_bind (K.operandNumber hfirst related (inv.turn .countFirst))
      fun _ _ _ gotFirst _ related => ?_
    refine recodes_bind (K.operandNumber hlast related (inv.turn (.countLast ⟨n, gotFirst⟩)))
      fun _ _ _ gotLast _ related => ?_
    refine recodes_bind (K.operandNumber hstep related
      (inv.turn (.countStep ⟨n, gotFirst⟩ ⟨n, gotLast⟩))) fun _ _ _ gotStep _ related => ?_
    refine recodes_bind_blind (blind_variableCell _) related fun _ _ _ hvar related => ?_
    refine recodes_bind_blind (blind_write _ _ _) related fun _ _ _ hwrite related => ?_
    obtain ⟨writable, rfl⟩ := done_of_write_done hwrite
    exact K.count h related
      (inv.turn (.count ⟨n, gotFirst⟩ ⟨n, gotLast⟩ ⟨n, gotStep⟩ hvar writable))
  | forEach hcollection h =>
    refine recodes_bind (K.operandValue hcollection related (inv.turn .collection))
      fun value u v evaluated _ related => ?_
    split
    · rename_i id _
      refine recodes_bind_look ?_
      have items : (v.store.members id).values = (u.store.members id).values :=
        related.eq_of (f := fun s => (s.store.members id).values) fun _ => rfl
      rw [items]
      refine recodes_bind_blind (blind_variableCell _) related fun _ _ _ hvar related => ?_
      exact K.eachPass h related (inv.turn (.each ⟨n, evaluated⟩ hvar))
    · exact recodes_pure () related
    · exact recodes_fail .typeMismatch related
  | select hsubject h =>
    exact recodes_bind (K.operandValue hsubject related (inv.turn .subject))
      fun _ _ _ evaluated _ related => K.executeCases h related (inv.turn (.cases ⟨n, evaluated⟩))
  | withObject hobject h =>
    refine recodes_bind (K.operand hobject related (inv.turn .withOperand))
      fun cell u v evaluated _ related => recodes_withObject ?_
    have inv := inv.enter (.withObject ⟨n, evaluated⟩)
    rw [related.objects_eq]
    exact K.executeBody h (related.withObjects _) inv
  | exit => exact recodes_fail .same related
  | @onError _ _ kind => cases kind <;> exact recodes_fail .same related
  | @optionExplicit _ _ on =>
    exact recodes_of_blind ((blind_change (f := (·.mapFrames (·.setExplicit c on)))
      (fun _ _ => rfl) fun _ => rfl).about (.visit c)) related
  | attached h => exact K.executeBody h related (inv.turn .included)
  | unattached => exact recodes_fail .same related

end Invokes

/-! ## All bounds -/

/-- A run with bare references nests no deeper than one with calls in their place, and one with calls
no deeper than twice as deep, as a call is one level more than its callee. -/
theorem recodes_ofBound : ∀ (m n : Nat), (k.left ∨ m ≤ n) → (k.right ∨ 2 * n ≤ m) →
    (ofBound m).Recodes P k n
  | m, 0, hleft, _ => by
    obtain left | none := hleft
    · exact ⟨fun _ _ _ => .left left, fun _ _ _ => .left left, .inl left, .inr (Nat.zero_le _)⟩
    · obtain rfl := Nat.le_zero.mp none
      exact ⟨fun _ _ _ => .exhausted, fun _ _ _ => .exhausted, .inr none, .inr none⟩
  | 0, n + 1, _, hright => by
    have right : k.right := hright.resolve_right (by omega)
    exact ⟨fun _ _ _ => .right right, fun _ _ _ => .right right, .inr (Nat.zero_le _), .inl right⟩
  | m + 1, n + 1, hleft, hright => by
    have parts : (ofBound m).Recodes P k n :=
      recodes_ofBound m n (hleft.imp_right (by omega)) (hright.imp_right (by omega))
    have K : (ofBound m).Invokes P k n :=
      { parts with
        applied := fun place chosen reference h related inv => by
          cases m with
          | zero => exact .right (hright.resolve_right (by omega))
          | succ m =>
            have K := recodes_ofBound m n (hleft.imp_right (by omega)) (hright.imp_right (by omega))
            exact K.operand_applied chosen reference h related inv place }
    exact ⟨K.evaluateExpr, K.executeStmt, hleft, hright.imp_right fun h => (by omega : n + 1 ≤ m + 1)⟩

/-- **A bare reference to a procedure without parameters calls it.**  Two scripts that differ in `()`
behind bare references, in states that differ in this too, run alike as long as these references, if
they evaluate to anything where their values are wanted, evaluate to procedures without parameters of
other names than the procedure that runs, and none of them is an argument that is handed over itself.
If one run ends, the other one does, and they end with the same result or a fault of the same kind,
in the same state but for the code of the functions. -/
theorem runBody_of_applies {c : FrameId} {s t : State} {body body' : List Stmt}
    (h : Stmt.AppliesAll P body body') (related : s.Recodes P t)
    (inv : ∀ u, Stmt.declareBody c body s = .done () u → Stage.AllInvoke P ⟨c, .body body, u⟩) :
    ((∃ n, (ofBound n).runBody c body s ≠ .exhausted) ↔
      ∃ n, (ofBound n).runBody c body' t ≠ .exhausted) ∧
    ∀ n m, (ofBound n).runBody c body s ≠ .exhausted → (ofBound m).runBody c body' t ≠ .exhausted →
      ((ofBound n).runBody c body s).Recodes P ⟨False, False⟩ ((ofBound m).runBody c body' t) := by
  have recodes (k : Slack) (n m : Nat) (hleft : k.left ∨ m ≤ n) (hright : k.right ∨ 2 * n ≤ m) :
      ((ofBound n).runBody c body s).Recodes P k ((ofBound m).runBody c body' t) :=
    recodes_bind (h.recodes_declareBody related) fun _ u _ declared _ related =>
      (recodes_ofBound m n hleft hright).executeBody h related (inv u declared)
  refine ⟨⟨fun ⟨n, ends⟩ => ⟨2 * n, fun exhausted => ?_⟩, fun ⟨m, ends⟩ => ⟨m, fun exhausted => ?_⟩⟩,
    fun n m ends ends' => ?_⟩
  · have both := recodes ⟨True, False⟩ n (2 * n) (.inl trivial) (.inr (Nat.le_refl _))
    rw [exhausted] at both
    exact ends (both.eq_exhausted id)
  · have both := recodes ⟨False, True⟩ m m (.inr (Nat.le_refl _)) (.inl trivial)
    rw [exhausted] at both
    exact ends (both.exhausted_eq id)
  · exact (recodes ⟨True, True⟩ n m (.inl trivial) (.inl trivial)).strict ends ends'

end Evaluator

namespace Stage

variable {c : FrameId} {s : State} {place target : Span} {name : Name}

theorem allInvoke_empty : AllInvoke P ⟨c, .body [], s⟩ :=
  .of_parts trivial (fun _ turns => by cases turns) fun _ enters => by cases enters

theorem allInvoke_literal {value : Literal} (other : ¬P (.literal place value)) :
    AllInvoke P ⟨c, .operand (.literal place value), s⟩ := by
  refine .of_parts (fun chosen => absurd chosen other) (fun b turns => ?_) (fun b enters => ?_)
  · cases turns
    exact .of_parts trivial (fun _ turns => by cases turns) fun _ enters => by cases enters
  · cases enters with
    | bareCall reference => cases reference

/-- A variable with a procedure without parameters comes to the body of the procedure. -/
theorem allInvoke_var {cell : CellId} {decl : Procedure} {home : FrameId}
    (other : (s.frames.get c).procedure ≠ some name) (found : s.lookup c name.text = some cell)
    (calls : s.store.bareCall? (s.store.read cell) = some (decl, home))
    (inv : ∀ u, AllInvoke P ⟨s.nextFrame, .body decl.body, u⟩) :
    AllInvoke P ⟨c, .operand (.var place name), s⟩ := by
  have evaluated {n : Nat} {cell' : CellId} {t : State}
      (h : (ofBound n).evaluate c (.var place name) s = .done cell' t) : cell' = cell ∧ t = s := by
    cases n with
    | zero => cases h
    | succ n =>
      cases (Evaluator.variableCell_of_lookup found).symm.trans h
      exact ⟨rfl, rfl⟩
  refine .of_parts (fun _ => ⟨fun _ _ h => ?_, fun n cell' t h => ?_⟩) (fun b turns => ?_)
    (fun b enters => ?_)
  · cases h
    exact other
  · obtain ⟨rfl, rfl⟩ := evaluated h
    rw [calls]
    rfl
  · cases turns
    exact .of_parts trivial (fun _ turns => by cases turns) fun _ enters => by cases enters
  · cases enters with
    | bareCall _ hcell found' =>
      obtain ⟨n, hcell⟩ := hcell
      obtain ⟨rfl, rfl⟩ := evaluated hcell
      cases calls.symm.trans found'
      exact inv _

/-- An assignment to a variable comes to the assigned operand. -/
theorem allInvoke_assign {value : Expr} (h : AllInvoke P ⟨c, .operand value, s⟩) :
    AllInvoke P ⟨c, .body [.assign place (.var target name) value], s⟩ := by
  refine .of_parts trivial (fun _ turns => ?_) fun _ enters => by cases enters
  cases turns with
  | first =>
    refine .of_parts trivial (fun _ turns => ?_) fun _ enters => by cases enters
    cases turns with
    | value => exact h
    | assigned =>
      refine .of_parts trivial (fun _ turns => ?_) fun _ enters => by cases enters
      cases turns
      exact .of_parts trivial (fun _ turns => by cases turns) fun _ enters => by cases enters
  | further => exact allInvoke_empty

/-- A procedure is declared before anything runs. -/
theorem allInvoke_procedure {decl : Procedure} {rest : List Stmt}
    (h : AllInvoke P ⟨c, .body rest, s⟩) :
    AllInvoke P ⟨c, .body (.procedure place decl :: rest), s⟩ := by
  refine .of_parts trivial (fun _ turns => ?_) fun _ enters => by cases enters
  cases turns with
  | first => exact .of_parts trivial (fun _ turns => by cases turns) fun _ enters => by cases enters
  | further hstmt =>
    obtain ⟨n, hstmt⟩ := hstmt
    cases n <;> cases hstmt
    exact h

end Stage

namespace Evaluator

/-- A function assigned to a variable is called, with or without `()`. -/
theorem runBody_of_applies_assign :
    let g := Name.ofString "g"
    let x := Name.ofString "x"
    let bare : Expr := .var default g
    let decl : Procedure :=
      .mk g .function [] [.assign default bare (.literal default (.number 5))] .isPublic
    let body (value : Expr) : List Stmt :=
      [.procedure default decl, .assign default (.var default x) value]
    let s := (State.start default 8).pushRoot.2
    ∃ u v, ((ofBound 3).runBody ⟨0⟩ (body bare) s).state? = some u ∧
      ((ofBound 4).runBody ⟨0⟩ (body (.call default bare [])) s).state? = some v ∧
      u.Recodes (· = bare) v ∧
      (v.lookup ⟨0⟩ x.text).map (fun cell => (v.store.read cell).kind) = some .number := by
  intro g x bare decl body s
  have applies : Stmt.AppliesAll (· = bare) (body bare) (body (.call default bare [])) :=
    .cons (.refl _) (.cons (.assign .var (.applied rfl rfl .var)) .nil)
  have calls : ∀ u, Stmt.declareBody ⟨0⟩ (body bare) s = .done () u →
      Stage.AllInvoke (· = bare) ⟨⟨0⟩, .body (body bare), u⟩ := by
    intro u declared
    have ran : Stmt.declareBody ⟨0⟩ (body bare) s = .done () ((s.newFunction (.script decl ⟨0⟩)).2.define
        ⟨0⟩ .unique g (.function ⟨0⟩)).2 := rfl
    cases ran.symm.trans declared
    refine Stage.allInvoke_procedure (Stage.allInvoke_assign ?_)
    refine @Stage.allInvoke_var _ _ _ _ _ ⟨0⟩ decl ⟨0⟩ nofun rfl rfl fun u => ?_
    exact Stage.allInvoke_assign (Stage.allInvoke_literal nofun)
  obtain ⟨u, left⟩ := Option.isSome_iff_exists.mp
    (by decide +kernel : ((ofBound 3).runBody ⟨0⟩ (body bare) s).state?.isSome = true)
  obtain ⟨v, right, number⟩ := Option.bind_eq_some_iff.mp
    (by decide +kernel :
      (((ofBound 4).runBody ⟨0⟩ (body (.call default bare [])) s).state?.bind fun v =>
        (v.lookup ⟨0⟩ x.text).map fun cell => (v.store.read cell).kind) = some .number)
  obtain ⟨-, alike⟩ := runBody_of_applies applies (.refl s) calls
  have ends := alike 3 4 (fun h => by rw [h] at left; cases left)
    (fun h => by rw [h] at right; cases right)
  exact ⟨u, v, left, right, ends.state? left right, number⟩

/-- An argument that is handed over itself is not called: the procedure gets the cell of the function
and can write to it, so that the name loses its function.  With `()` behind it, it is called. -/
theorem runBody_of_shared :
    let f := Name.ofString "f"
    let p := Name.ofString "p"
    let x := Name.ofString "x"
    let bare : Expr := .var default f
    let one : Procedure :=
      .mk f .function [] [.assign default bare (.literal default (.number 1))] .isPublic
    let five : Procedure := .mk p .sub [⟨x, true⟩]
      [.assign default (.var default x) (.literal default (.number 5))] .isPublic
    let body (arg : Expr) : List Stmt := [.procedure default one, .procedure default five,
      .call default (.call default (.var default p) [.mk arg false])]
    let s := (State.start default 8).pushRoot.2
    let kind (cell : CellId) (t : State) := (t.store.read cell).kind
    ∃ cell t, Stmt.declareBody ⟨0⟩ (body bare) s = .done () t ∧
      (ofBound 1).evaluate ⟨0⟩ bare t = .done cell t ∧
      t.store.bareCall? (t.store.read cell) = some (one, ⟨0⟩) ∧
      ((ofBound 4).runBody ⟨0⟩ (body bare) s).state?.map (kind cell) = some .number ∧
      ((ofBound 5).runBody ⟨0⟩ (body (.call default bare [])) s).state?.map (kind cell) =
        some .function := by
  intro f p x bare one five body s kind
  let first := ((s.newFunction (.script one ⟨0⟩)).2.define ⟨0⟩ .unique f (.function ⟨0⟩)).2
  let t := ((first.newFunction (.script five ⟨0⟩)).2.define ⟨0⟩ .unique p (.function ⟨1⟩)).2
  have declared : Stmt.declareBody ⟨0⟩ (body bare) s = .done () t := rfl
  have found : t.lookup ⟨0⟩ f.text = some ⟨0⟩ := by decide +kernel
  exact ⟨⟨0⟩, t, declared, variableCell_of_lookup found, rfl, by decide +kernel, by decide +kernel⟩

end Evaluator

end PageScript
