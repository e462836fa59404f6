import PageScript.Proofs.Machine.Accord

/-!
# Proofs/Machine/Concord — code does the same from states that look the same

Under an accord every function of the evaluator does the same from related states, if the evaluator of
the parts does: it gives corresponding results or the very same fault, in related states.  The circle
is closed by induction on the bound (`Evaluator.accords_ofBound`).
-/

namespace PageScript

open Run

/-- An accord under which the parts of expressions and statements do the same. -/
structure Evaluator.Accords (H : Pairing → State → State → Prop) (ev : Evaluator) : Prop
    extends Accord H where
  evaluate : ∀ {π} c e, (ev.evaluate c e).Accords H π (ev.evaluate c e) Pairing.cell
  execute : ∀ {π} c stmt, (ev.execute c stmt).Accords H π (ev.execute c stmt) Same

namespace Evaluator.Accords

variable {H : Pairing → State → State → Prop} {π : Pairing} {ev : Evaluator} (K : ev.Accords H)
  {c : FrameId} {v w : Value}

include K

theorem executeBody (body : List Stmt) :
    (ev.executeBody c body).Accords H π (ev.executeBody c body) Same := by
  induction body generalizing π with
  | nil => exact accords_same ()
  | cons stmt rest ih => exact ((K.execute c stmt).within _).bindSame fun _ _ _ => ih

/-! ## Calls -/

theorem runProcedure (decl : Procedure) (home : FrameId) {as bs : List CellId} (h : π.cells as bs) :
    (ev.runProcedure decl home as).Accords H π (ev.runProcedure decl home bs) Pairing.cell := by
  refine K.accords_withoutObjects (Accords.about (K.accords_inCall fun frame => ?_) _ _)
  have mark : (visiting frame fun frame => change (·.mapFrames (·.setProcedure frame decl.name))).Accords
      H π (visiting frame fun frame => change (·.mapFrames (·.setProcedure frame decl.name))) Same :=
    Accords.visiting (accords_change fun _ h => K.setProcedure h frame decl.name)
  refine mark.bindSame fun _ _ le => ?_
  refine (K.accords_declare (.plain rfl) frame .replacing decl.name).bind
    fun ρ result result' le' hresult => ?_
  have bind : (bindAll frame decl.params as).Accords H ρ (bindAll frame decl.params bs) Same := by
    refine Accords.visiting (accords_change fun le'' h' => K.bindAll decl.params h' ?_)
    exact h.imp fun _ _ hab => le''.cell (le'.cell (le.cell hab))
  exact bind.bindSame fun _ _ le₁ => (K.accords_declareBody decl.body).bindSame fun _ _ le₂ =>
    (K.executeBody decl.body).bindSame fun _ _ le₃ =>
      accords_pure fun _ le₄ => le₄.cell (le₃.cell (le₂.cell (le₁.cell hresult)))

/-- A bare reference calls the same procedure, or none. -/
theorem operand (e : Expr) : (ev.operand c e).Accords H π (ev.operand c e) Pairing.cell := by
  refine (K.evaluate c e).bind fun ρ a b _ hab => ?_
  have called : (look fun s => s.store.bareCall? (s.store.read a)).Accords H ρ
      (look fun s => s.store.bareCall? (s.store.read b)) Same :=
    accords_look fun le h => K.bareCall?_eq h (K.read h (le.cell hab))
  have kept {σ : Pairing} (le : ρ ≤ σ) : (pure a : Run CellId).Accords H σ (pure b) Pairing.cell :=
    accords_pure fun _ le' => le'.cell (le.cell hab)
  refine (called.bindSame fun σ found le => ?_).ite (kept (le_refl _))
  cases found with
  | some found => exact K.runProcedure found.1 found.2 .nil
  | none => exact kept le

theorem operandValue (e : Expr) :
    (ev.operandValue c e).Accords H π (ev.operandValue c e) Value.Twins :=
  (K.operand e).bind fun _ _ _ _ hab => K.accords_read hab

theorem operandNumber (e : Expr) : (ev.operandNumber c e).Accords H π (ev.operandNumber c e) Same :=
  (K.operandValue e).bind fun _ _ _ _ hv => accords_ofExcept hv.toNumber_eq fun _ _ _ => rfl

theorem condition (e : Expr) : (ev.condition c e).Accords H π (ev.condition c e) Same :=
  (K.operandValue e).bind fun _ _ _ _ hv => accords_ofExcept hv.isTrue_eq fun _ _ _ => rfl

/-! ## Variables and members -/

omit K in
theorem variableCell (K : Accord H) (name : Name) :
    (Evaluator.variableCell c name).Accords H π (Evaluator.variableCell c name) Pairing.cell := by
  have resolved : (visiting c fun c => step fun s => s.resolve c name true).Accords H π
      (visiting c fun c => step fun s => s.resolve c name true) Pairing.cell? :=
    Accords.visiting (accords_step fun _ h => K.resolve h c name true)
  refine resolved.bind fun _ _ _ _ found => ?_
  cases found with
  | some hab => exact accords_pure fun _ le => le.cell hab
  | none => exact accords_fail _

theorem enclosingObject :
    Evaluator.enclosingObject.Accords H π Evaluator.enclosingObject Value.Twins := by
  have objects : (look (·.objects)).Accords H π (look (·.objects)) Pairing.cells :=
    accords_look fun _ h => K.objects h
  refine objects.bind fun _ _ _ _ objects => ?_
  cases objects with
  | nil => exact accords_fail _
  | cons hab => exact K.accords_read hab

theorem memberCell (h : v.Twins π w) (name : Name) :
    (Evaluator.memberCell v name).Accords H π (Evaluator.memberCell w name) Pairing.cell := by
  cases h with
  | @object a b hid =>
    have found : (look fun s => (s.store.members a).get? name.text).Accords H π
        (look fun s => (s.store.members b).get? name.text) Pairing.cell? :=
      accords_look fun le h => (K.members h (le.object hid)).get? name.text
    refine found.bind fun _ _ _ _ found => ?_
    cases found with
    | some hab => exact accords_pure fun _ le => le.cell hab
    | none => exact accords_fail _
  | plain plain => cases v <;> first | exact accords_fail _ | nomatch plain
  | function => exact accords_fail _

theorem memberPlace (h : v.Twins π w) (name : Name) :
    (Evaluator.memberPlace v name).Accords H π (Evaluator.memberPlace w name) Pairing.cell := by
  cases h with
  | @object a b hid =>
    have made : (step fun s => s.memberOrNew a name).Accords H π (step fun t => t.memberOrNew b name)
        Pairing.cell :=
      accords_step fun le h => K.memberOrNew h (le.object hid) name
    exact made
  | plain plain => cases v <;> first | exact accords_fail _ | nomatch plain
  | function => exact accords_fail _

theorem place (e : Expr) : (ev.place c e).Accords H π (ev.place c e) Pairing.cell := by
  unfold Evaluator.place
  split
  · exact (K.operandValue _).bind fun _ _ _ _ hv => K.memberPlace hv _
  · exact K.enclosingObject.bind fun _ _ _ _ hv => K.memberPlace hv _
  · exact K.evaluate c _

/-! ## Arguments -/

theorem passed (param : Param) (arg : Arg) :
    (ev.passed c param arg).Accords H π (ev.passed c param arg) Pairing.cell :=
  (K.place _).ite ((K.operandValue _).bind fun _ _ _ _ hv => K.accords_newCell hv)

theorem passedAll : ∀ {π : Pairing} (pairs : List (Param × Arg)),
    (ev.passedAll c pairs).Accords H π (ev.passedAll c pairs) Pairing.cells
  | _, [] => accords_pure fun _ _ => .nil
  | _, (param, arg) :: rest =>
    (K.passed param arg).bind fun _ _ _ _ hfirst => (passedAll rest).bind fun _ _ _ le hrest =>
      accords_pure fun _ le' => .cons (le'.cell (le.cell hfirst)) (hrest.imp fun _ _ => le'.cell)

theorem operands : ∀ {π : Pairing} (args : List Arg),
    (ev.operands c args).Accords H π (ev.operands c args) Pairing.cells
  | _, [] => accords_pure fun _ _ => .nil
  | _, arg :: rest =>
    (K.operand arg.value).bind fun _ _ _ _ hfirst => (operands rest).bind fun _ _ _ le hrest =>
      accords_pure fun _ le' => .cons (le'.cell (le.cell hfirst)) (hrest.imp fun _ _ => le'.cell)

theorem call {f g : Callable} (h : f.Twins π g) (args : List Arg) :
    (ev.call c f args).Accords H π (ev.call c g args) Pairing.cell := by
  cases h with
  | @native name service _ _ hheld =>
    exact (K.operands args).bind fun _ _ _ le h =>
      service.accords_call K.toAccord (hheld.imp fun _ _ => le.cell) h
  | @script decl home =>
    exact (accords_fail _).ite ((K.passedAll _).bind fun _ _ _ _ h => K.runProcedure decl home h)

theorem recursionCell? {s t : State} (h : H π s t) (callee : Expr) :
    π.cell? (Evaluator.recursionCell? s c callee) (Evaluator.recursionCell? t c callee) := by
  cases callee with
  | var _ name =>
    have here := (K.frames h).get c
    simp only [Evaluator.recursionCell?, ← here.procedure, ← here.parent]
    split
    · cases (s.frames.get c).parent with
      | some parent => exact K.lookup h parent name.text
      | none => exact .none
    · exact .none
  | _ => exact .none

theorem calledValue (callee : Expr) :
    (ev.calledValue c callee).Accords H π (ev.calledValue c callee) Value.Twins := by
  have found : (visiting c fun c => look (Evaluator.recursionCell? · c callee)).Accords H π
      (visiting c fun c => look (Evaluator.recursionCell? · c callee)) Pairing.cell? :=
    Accords.visiting (accords_look fun _ h => K.recursionCell? h callee)
  refine found.bind fun _ _ _ _ found => ?_
  cases found with
  | some hab => exact K.accords_read hab
  | none => exact (K.evaluate c callee).bind fun _ _ _ _ hab => K.accords_read hab

theorem callable? {s t : State} (h : H π s t) (hv : v.Twins π w) :
    Option.Rel (Callable.Twins π) (Evaluator.callable? s v) (Evaluator.callable? t w) := by
  cases hv with
  | function hid => exact K.function? h hid
  | plain plain => cases v <;> first | exact .none | nomatch plain
  | object => exact .none

theorem applyCall (callee : Expr) (args : List Arg) :
    (ev.applyCall c callee args).Accords H π (ev.applyCall c callee args) Pairing.cell := by
  refine (K.calledValue callee).bind fun ρ v w _ hv => ?_
  have found : (look (Evaluator.callable? · v)).Accords H ρ (look (Evaluator.callable? · w))
      fun ρ => Option.Rel (Callable.Twins ρ) :=
    accords_look fun le h => K.callable? h (hv.mono le)
  refine found.bind fun _ _ _ _ found => ?_
  cases found with
  | some twins => exact K.call twins args
  | none =>
    rw [hv.kind_eq]
    exact accords_fail _

/-! ## Expressions -/

/-- What is computed refers to nothing. -/
theorem newComputed {e e' : Except Fault.Cause Value} (same : e = e')
    (plain : ∀ v, e = .ok v → v.isPlain = true) :
    (ofExcept e >>= Run.newCell).Accords H π (ofExcept e' >>= Run.newCell) Pairing.cell :=
  (accords_ofExcept same fun _ v h => .plain (plain v h)).bind fun _ _ _ _ hv => K.accords_newCell hv

theorem applyBinary (op : BinaryOp) {v' w' : Value} (hv : v.Twins π w) (hv' : v'.Twins π w') :
    (ofExcept (Value.applyBinary op v v') >>= Run.newCell).Accords H π
      (ofExcept (Value.applyBinary op w w') >>= Run.newCell) Pairing.cell :=
  accords_of_biUnique K.toAccord fun _ objects functions =>
    K.newComputed (hv.applyBinary_eq op hv' objects functions) fun _ =>
      Value.isPlain_of_computes fun _ => Value.computes_applyBinary op

theorem evaluateExpr (e : Expr) :
    (ev.evaluateExpr c e).Accords H π (ev.evaluateExpr c e) Pairing.cell := by
  unfold Evaluator.evaluateExpr
  split
  · exact K.accords_newCell (Value.twins_ofLiteral _)
  · exact variableCell K.toAccord _
  · exact (K.operandValue _).bind fun _ _ _ _ hv => K.memberCell hv _
  · exact K.enclosingObject.bind fun _ _ _ _ hv => K.memberCell hv _
  · exact K.applyCall _ _
  · exact accords_fail _
  · exact (K.evaluate c _).bind fun _ _ _ _ left => (K.accords_read left).bind fun _ _ _ _ left =>
      (K.evaluate c _).bind fun _ _ _ le right => (K.accords_read right).bind fun _ _ _ le' right =>
        K.applyBinary .is ((left.mono le).mono le') right
  · exact (K.operandValue _).bind fun _ _ _ _ left => (K.operandValue _).bind fun _ _ _ le right =>
      K.applyBinary _ (left.mono le) right
  · exact (K.operandValue _).bind fun _ _ _ _ hv => K.newComputed (hv.applyUnary_eq _) fun _ =>
      Value.isPlain_of_computes fun _ => Value.computes_applyUnary _

/-! ## Statements -/

theorem loopPass (cond : Expr) (body : List Stmt) (untilTrue : Bool) :
    (ev.loopPass c cond body untilTrue).Accords H π (ev.loopPass c cond body untilTrue) Same :=
  (K.condition cond).bindSame fun _ _ _ =>
    (accords_same _).ite ((K.executeBody body).bindSame fun _ _ _ => accords_same _)

theorem countPass (var : Name) {counter counter' : CellId} (hcounter : π.cell counter counter')
    (last step : Float) (body : List Stmt) :
    (ev.countPass c var counter last step body).Accords H π
      (ev.countPass c var counter' last step body) Same := by
  have number {ρ : Pairing} {v w : Value} (hv : v.Twins ρ w) :
      (ofExcept v.toNumber).Accords H ρ (ofExcept w.toNumber) Same :=
    accords_ofExcept hv.toNumber_eq fun _ _ _ => rfl
  refine (K.accords_read hcounter).bind fun _ _ _ le hv => (number hv).bindSame fun _ _ le₁ => ?_
  refine (accords_same false).ite ((K.executeBody body).bindSame fun ρ _ le₂ => ?_)
  have hcounter : ρ.cell counter counter' := le₂.cell (le₁.cell (le.cell hcounter))
  exact (K.accords_read hcounter).bind fun _ _ _ le hv => (number hv).bindSame fun _ _ le₁ =>
    (K.accords_write (le₁.cell (le.cell hcounter)) (.plain rfl) _).bindSame fun _ _ _ =>
      accords_same true

theorem eachPass (var : Name) (body : List Stmt) : ∀ {π : Pairing} {element element' : CellId},
    π.cell element element' → ∀ {as bs : List CellId}, π.cells as bs →
      (ev.eachPass c var element body as).Accords H π (ev.eachPass c var element' body bs) Same
  | _, _, _, _, _, _, .nil => accords_same ()
  | _, _, _, helement, _, _, .cons hitem rest =>
    (K.accords_read hitem).bind fun _ _ _ le hv =>
      (K.accords_write (le.cell helement) hv _).bindSame fun _ _ le₁ =>
        (K.executeBody body).bindSame fun _ _ le₂ =>
          eachPass var body (le₂.cell (le₁.cell (le.cell helement)))
            (rest.imp fun _ _ hab => le₂.cell (le₁.cell (le.cell hab)))

theorem matchesAny : ∀ {π : Pairing} {v w : Value}, v.Twins π w → ∀ es : List Expr,
    (ev.matchesAny c v es).Accords H π (ev.matchesAny c w es) Same
  | _, _, _, _, [] => accords_same false
  | _, _, _, hsubject, e :: rest =>
    (K.operandValue e).bind fun _ _ _ le hv =>
      (accords_ofExcept ((hsubject.mono le).areEqual_eq hv) fun _ _ _ => rfl).bindSame fun _ _ le' =>
        (accords_same _).ite (matchesAny ((hsubject.mono le).mono le') rest)

theorem executeCases : ∀ {π : Pairing} {v w : Value}, v.Twins π w → ∀ cases : List Case,
    (ev.executeCases c v cases).Accords H π (ev.executeCases c w cases) Same
  | _, _, _, _, [] => accords_same ()
  | _, _, _, _, .mk none body :: _ => K.executeBody body
  | _, _, _, hsubject, .mk (some conditions) body :: rest =>
    (K.matchesAny hsubject conditions).bindSame fun _ _ le =>
      (K.executeBody body).ite (executeCases (hsubject.mono le) rest)

theorem count (var : Name) (first last step : Expr) (body : List Stmt) (span : Span) :
    (ev.executeStmt c (.count span var first last step body)).Accords H π
      (ev.executeStmt c (.count span var first last step body)) Same :=
  (K.operandNumber first).bindSame fun _ _ _ => (K.operandNumber last).bindSame fun _ _ _ =>
    (K.operandNumber step).bindSame fun _ _ _ => (variableCell K.toAccord var).bind
      fun _ _ _ _ hcounter => (K.accords_write hcounter (.plain rfl) _).bindSame fun _ _ le =>
        (K.countPass var (le.cell hcounter) _ _ body).repeatWhile _

theorem forEach (var : Name) (collection : Expr) (body : List Stmt) (span : Span) :
    (ev.executeStmt c (.forEach span var collection body)).Accords H π
      (ev.executeStmt c (.forEach span var collection body)) Same := by
  refine (K.operandValue collection).bind fun ρ v w _ hv => ?_
  cases hv with
  | @object a b hid =>
    have items : (look fun s => (s.store.members a).values).Accords H ρ
        (look fun s => (s.store.members b).values) Pairing.cells :=
      accords_look fun le h => (K.members h (le.object hid)).values
    exact items.bind fun _ _ _ _ items => (variableCell K.toAccord var).bind fun _ _ _ le element =>
      K.eachPass var body element (items.imp fun _ _ => le.cell)
  | plain plain =>
    cases v with
    | empty => exact accords_same ()
    | object | function => nomatch plain
    | _ => exact accords_fail _
  | function => exact accords_fail _

theorem executeStmt : ∀ stmt : Stmt,
    (ev.executeStmt c stmt).Accords H π (ev.executeStmt c stmt) Same
  | .block _ body | .includeFile _ _ (some body) => K.executeBody body
  | .assign _ target value =>
    (K.operandValue value).bind fun _ _ _ _ hv => (K.place target).bind fun _ _ _ le hcell =>
      K.accords_write hcell (hv.mono le) _
  | .call _ e => (K.evaluate c e).bind fun _ _ _ _ _ => accords_same ()
  | .dim .. | .const .. | .procedure .. | .classDecl .. | .property .. => accords_same ()
  | .redim .. | .exit .. | .onError _ .resumeNext | .onError _ .gotoZero
  | .includeFile _ _ none => accords_fail _
  | .branch _ cond thenBody elseBody =>
    (K.condition cond).bindSame fun _ _ _ => (K.executeBody thenBody).ite (K.executeBody elseBody)
  | .loop _ cond body untilTrue _ =>
    have passes := (K.loopPass cond body untilTrue).repeatWhile ev.passes
    ((K.executeBody body).bindSame fun _ _ le => passes.later le).ite passes
  | .count span var first last step body => K.count var first last step body span
  | .forEach span var collection body => K.forEach var collection body span
  | .select _ subject cases =>
    (K.operandValue subject).bind fun _ _ _ _ hv => K.executeCases hv cases
  | .withObject _ object body =>
    (K.operand object).bind fun _ _ _ _ hab => K.accords_withObject (K.executeBody body) hab
  | .optionExplicit _ on =>
    have set : (change (·.mapFrames (·.setExplicit c on))).Accords H π
        (change (·.mapFrames (·.setExplicit c on))) Same :=
      accords_change fun _ h => K.setExplicit h c on
    set.about _ _

/-- A body does the same from related states, its declarations included. -/
theorem runBody (body : List Stmt) : (ev.runBody c body).Accords H π (ev.runBody c body) Same :=
  (K.accords_declareBody body).bindSame fun _ _ _ => K.executeBody body

end Evaluator.Accords

/-! ## Closing the circle -/

variable {H : Pairing → State → State → Prop}

/-- **Whatever looks the same runs the same**: under an accord an evaluator does the same from related
states, at every bound. -/
theorem Evaluator.accords_ofBound (K : Accord H) : ∀ bound, (ofBound bound).Accords H
  | 0 => { K with
    evaluate := fun _ _ => accords_exhausted
    execute := fun _ _ => accords_exhausted }
  | bound + 1 => { K with
    evaluate := fun _ e => (accords_ofBound K bound).evaluateExpr e
    execute := fun _ stmt => (accords_ofBound K bound).executeStmt stmt }

end PageScript
