import PageScript.Proofs.Machine.Sphere

/-!
# Proofs/Machine/Confinement — runs that do not leave their sphere

`S.Holds F R` says of a family of runs, one for each bound, that from a state within the sphere
`S` they end within it, that their results have a property, and that they end at all if code of the
sphere does not loop.  There is one rule for each way to build a run; native functions and
declarations follow from the rules.
-/

namespace PageScript

open Run

variable {S : Sphere} {α β : Type} {c : FrameId} {R : α → Prop}

namespace Sphere

/-- Runs of a family that start within a sphere end within it, their results have a property, and
if code of the sphere does not loop they end. -/
def Holds (S : Sphere) (F : Nat → Run α) (R : α → Prop) : Prop :=
  ∀ s : State, s.Within S → Conforms F s (fun a t => t.Within S ∧ R a) S.fails S.total

/-! ## Faults -/

theorem fails_of_ne {cause : Fault.Cause} (h : ∀ feature, cause ≠ .unsupported feature) :
    S.fails cause :=
  fun _ _ => h _

theorem fails_readonlyWrite {target : String} : S.fails (.readonlyWrite target) :=
  fails_of_ne nofun

/-- Of the features that are not supported, only the missing file has a name that starts so. -/
theorem fails_of_head {feature : String} (h : feature.toList.head? ≠ some 'u') :
    S.fails (.unsupported feature) := by
  rintro - _ heq
  refine h ?_
  injection heq with heq
  rw [heq]
  simp [String.toList_append]

/-! ## Runs built by the rules -/

theorem holds_pure {a : α} (h : R a) : S.Holds (fun _ => pure a) R :=
  fun _ hs => conforms_of_done (fun _ => rfl) ⟨hs, h⟩

theorem holds_look {f : State → α} (h : ∀ s : State, s.Within S → R (f s)) :
    S.Holds (fun _ => look f) R :=
  fun s hs => conforms_of_done (fun _ => rfl) ⟨hs, h s hs⟩

theorem holds_change {f : State → State} (h : ∀ s : State, s.Within S → (f s).Within S) :
    S.Holds (fun _ => change f) fun _ => True :=
  fun s hs => conforms_of_done (fun _ => rfl) ⟨h s hs, trivial⟩

theorem holds_step {f : State → α × State}
    (h : ∀ s : State, s.Within S → (f s).2.Within S ∧ R (f s).1) :
    S.Holds (fun _ => step f) R :=
  fun s hs => conforms_of_done (fun _ => rfl) (h s hs)

theorem holds_fail {cause : Fault.Cause} (h : S.fails cause) :
    S.Holds (fun _ => (fail cause : Run α)) R :=
  fun _ _ => conforms_of_failed (fun _ => rfl) h

theorem holds_ofExcept {r : Except Fault.Cause α} (hok : ∀ a, r = .ok a → R a)
    (herror : ∀ cause, r = .error cause → S.fails cause) :
    S.Holds (fun _ => ofExcept r) R := by
  cases r with
  | ok a => exact fun _ hs => conforms_of_done (fun _ => rfl) ⟨hs, hok a rfl⟩
  | error cause => exact fun _ _ => conforms_of_failed (fun _ => rfl) (herror cause rfl)

theorem holds_newCell {v : Value} (hv : S.value v) : S.Holds (fun _ => Run.newCell v) S.cell :=
  holds_step fun _ hs => hs.newCell hv false

theorem holds_read {id : CellId} (hid : S.cell id) : S.Holds (fun _ => read id) S.value :=
  holds_look fun _ hs => hs.store.values hid

theorem holds_write {id : CellId} (hid : S.cell id) {v : Value} (hv : S.value v)
    {refused : Fault.Cause} (hrefused : S.fails refused) : S.Holds (fun _ => write id v refused) fun _ => True := by
  intro s hs
  by_cases readonly : s.store.isReadonly id = true
  · exact conforms_of_failed (fun _ => if_pos readonly) hrefused
  · exact conforms_of_done (fun _ => if_neg readonly) ⟨hs.put hid hv, trivial⟩

theorem Holds.bind {F : Nat → Run α} {G : α → Nat → Run β} {R' : β → Prop}
    (hF : S.Holds F R) (hG : ∀ a, R a → S.Holds (G a) R') :
    S.Holds (fun n => F n >>= fun a => G a n) R' :=
  fun s hs => (hF s hs).bind fun a t h => hG a h.2 t h.1

theorem Holds.later {F F' : Nat → Run α} (hF : S.Holds F R) (zero : F' 0 = exhausted)
    (succ : ∀ n, F' (n + 1) = F n) : S.Holds F' R :=
  fun s hs => (hF s hs).later (by rw [zero]; rfl) fun n => by rw [succ]

theorem Holds.about {F : Nat → Run α} {act : Act} (hF : S.Holds F R) :
    S.Holds (fun n => Run.about act (F n)) R :=
  fun s hs => ⟨(hF s hs).done, (hF s hs).fails, (hF s hs).settles⟩

theorem Holds.within {F : Nat → Run α} (hF : S.Holds F R) (place : Span) :
    S.Holds (fun n => Run.within place (F n)) R :=
  fun s hs => (hF s hs).map (fun n => within_eq_map place (F n) s) (fun _ _ h => h) fun _ => rfl

theorem Holds.withObject {F : Nat → Run α} (hF : S.Holds F R) {object : CellId}
    (hobject : S.cell object) : S.Holds (fun n => Run.withObject object (F n)) R := by
  intro s hs
  have inner := hs.withObjects (List.forall_mem_cons.mpr ⟨hobject, hs.objects⟩)
  refine (hF _ inner).map (fun n => withObject_eq_map object (F n) s) ?_ fun _ => rfl
  exact fun a t h => ⟨h.1.withObjects fun cell hcell =>
    h.1.objects cell (List.mem_of_mem_tail hcell), h.2⟩

theorem Holds.withoutObjects {F : Nat → Run α} (hF : S.Holds F R) :
    S.Holds (fun n => Run.withoutObjects (F n)) R := by
  intro s hs
  have inner := hs.withObjects (List.forall_mem_nil _)
  refine (hF _ inner).map (fun n => withoutObjects_eq_map (F n) s) ?_ fun _ => rfl
  exact fun a t h => ⟨h.1.withObjects hs.objects, h.2⟩

/-- A call runs one level deeper, if there is room for it. -/
theorem Holds.inCall {F : Nat → FrameId → Run α} {home : FrameId}
    (hF : S.depth < S.limit → ∀ frame, S.deeper.Holds (fun n => F n frame) R) :
    S.Holds (fun n => Run.inCall home (F n)) R := by
  intro s hs
  by_cases full : s.isFull = true
  · exact conforms_of_failed (fun _ => inCall_of_isFull full) (fails_of_ne nofun)
  · have room : s.isFull = false := Bool.eq_false_iff.mpr full
    have below : S.depth < S.limit := by
      rw [State.isFull, hs.depth, hs.limit] at room
      exact Nat.lt_of_not_le (of_decide_eq_false room)
    refine (hF below (s.enter home).1 _ (hs.enter home)).map
      (fun n => inCall_eq_map (F n) room) ?_ fun _ => rfl
    exact fun a t h => ⟨h.1.leave _, h.2⟩

theorem Holds.ite {p : Prop} [Decidable p] {F G : Nat → Run α} (hF : S.Holds F R)
    (hG : S.Holds G R) : S.Holds (fun n => if p then F n else G n) R := by
  split
  · exact hF
  · exact hG

/-- A loop stays within the sphere for as long as it runs.  That it ends is not said: code that
loops is not in a sphere whose code does not. -/
theorem Holds.repeatWhile {F : Nat → Run Bool} (hF : S.Holds F fun _ => True) (loops : ¬S.total) :
    S.Holds (fun n => Run.repeatWhile n (F n)) fun _ => True := by
  have passes : ∀ k n, ∀ s : State, s.Within S →
      (∀ a t, Run.repeatWhile k (F n) s = .done a t → t.Within S ∧ True) ∧
        (∀ f t, Run.repeatWhile k (F n) s = .failed f t → S.fails f.cause) := by
    intro k n
    induction k with
    | zero => exact fun s _ => ⟨nofun, nofun⟩
    | succ k ih =>
      intro s hs
      have rest : ∀ again t, t.Within S ∧ True →
          Conforms (fun _ => if again = true then Run.repeatWhile k (F n) else pure ()) t
            (fun _ u => u.Within S ∧ True) S.fails False := by
        intro again t ht
        cases again with
        | true => exact ⟨fun _ => (ih t ht.1).1, fun _ => (ih t ht.1).2, False.elim⟩
        | false => exact conforms_of_done (fun _ => rfl) ht
      have pass : Conforms (fun _ => F n) s (fun _ t => t.Within S ∧ True) S.fails False :=
        ⟨fun _ => (hF s hs).done n, fun _ => (hF s hs).fails n, False.elim⟩
      exact ⟨(pass.bind rest).done 0, (pass.bind rest).fails 0⟩
  exact fun s hs => ⟨fun n => (passes n n s hs).1, fun n => (passes n n s hs).2,
    fun total => absurd total loops⟩

theorem holds_declare {how : State.Declaration} {name : Name} {v : Value} (hv : S.value v) :
    S.Holds (fun _ => Run.declare c how name v) S.cell := by
  intro s hs
  cases hfault : s.declarationFault? c how name with
  | some cause =>
    refine conforms_of_failed (f := .of cause) (t := s) (fun _ => ?_) ?_
    · simp only [Run.declare, Run.visiting, about, through, atomic, hfault]
    · refine fails_of_ne fun feature heq => ?_
      subst heq
      simp only [State.declarationFault?] at hfault
      split at hfault
      · cases hfault
      · split at hfault <;> cases hfault
  | none =>
    refine conforms_of_done (a := (s.define c how name v).1) (t := (s.define c how name v).2)
      (fun _ => ?_) (hs.define hv)
    simp only [Run.declare, Run.visiting, about, through, atomic, hfault]

end Sphere

/-! ## Values

Conversions and operators make no references, and what they fail for is a number, a text, an object
or a divisor that is not there. -/

/-- A computation with values gives a good result, or a fault that is none of a missing feature. -/
def Computes (good : α → Prop) : Except Fault.Cause α → Prop
  | .ok a => good a
  | .error cause => ∀ feature, cause ≠ .unsupported feature

theorem Computes.bind {r : Except Fault.Cause α} {next : α → Except Fault.Cause β}
    {good : α → Prop} {good' : β → Prop} (hr : Computes good r)
    (hnext : ∀ a, good a → Computes good' (next a)) : Computes good' (r >>= next) := by
  cases r with
  | ok a => exact hnext a hr
  | error cause => exact hr

theorem Sphere.holds_computation {r : Except Fault.Cause α} (hr : Computes R r) :
    S.Holds (fun _ => ofExcept r) R := by
  refine holds_ofExcept (fun a h => ?_) fun cause h => ?_
  · subst h
    exact hr
  · subst h
    exact fails_of_ne hr

namespace Value

variable {v w : Value}

theorem value_ofLiteral (l : Literal) : S.value (ofLiteral l) := by
  cases l <;> trivial

theorem computes_toNumber : Computes (fun _ => True) v.toNumber := by
  cases v with
  | string text =>
    unfold toNumber
    dsimp only
    split
    · trivial
    · exact nofun
  | boolean b => cases b <;> trivial
  | number _ | empty | nothing => trivial
  | null | object _ | function _ => exact nofun

theorem computes_toText : Computes (fun _ => True) v.toText := by
  cases v with
  | boolean b => cases b <;> trivial
  | object _ | function _ => exact nofun
  | _ => trivial

theorem computes_isTrue : Computes (fun _ => True) v.isTrue :=
  computes_toNumber.bind fun _ _ => trivial

theorem computes_toInteger : Computes (fun _ => True) v.toInteger :=
  computes_toNumber.bind fun _ _ => trivial

theorem computes_order : Computes (fun _ => True) (v.order w) := by
  unfold order
  split
  any_goals trivial
  exact computes_toNumber.bind fun _ _ => computes_toNumber.bind fun _ _ => trivial

theorem computes_areEqual : Computes (fun _ => True) (v.areEqual w) :=
  computes_order.bind fun _ _ => trivial

theorem computes_numeric {op : Float → Float → Except Fault.Cause Float}
    (hop : ∀ a b, Computes (fun _ => True) (op a b)) : Computes S.value (numeric op v w) :=
  computes_toNumber.bind fun _ _ => computes_toNumber.bind fun _ _ =>
    (hop _ _).bind fun _ _ => trivial

theorem computes_comparison {test : Option Ordering → Bool} :
    Computes S.value (comparison test v w) :=
  computes_order.bind fun _ _ => trivial

theorem computes_bitwise {op : Int64 → Int64 → Int64} : Computes S.value (bitwise op v w) := by
  refine computes_toInteger.bind fun _ _ => computes_toInteger.bind fun _ _ => ?_
  split <;> trivial

theorem computes_applyBinary (op : BinaryOp) : Computes S.value (applyBinary op v w) := by
  unfold applyBinary
  split
  · split
    · trivial
    · exact computes_numeric fun _ _ => trivial
  · exact computes_numeric fun _ _ => trivial
  · exact computes_numeric fun _ _ => trivial
  · refine computes_numeric fun a b => ?_
    split
    · exact nofun
    · trivial
  · refine computes_numeric fun a b => ?_
    split
    · exact nofun
    · trivial
  · exact computes_numeric fun _ _ => trivial
  · refine computes_numeric fun a b => ?_
    dsimp only
    split
    · exact nofun
    · trivial
  · exact computes_toText.bind fun _ _ => computes_toText.bind fun _ _ => trivial
  any_goals exact computes_comparison
  any_goals exact computes_bitwise
  split
  · trivial
  · exact nofun

theorem computes_applyUnary (op : UnaryOp) : Computes S.value (applyUnary op v) := by
  unfold applyUnary
  split
  · trivial
  · exact computes_toInteger.bind fun _ _ => trivial
  · exact computes_toNumber.bind fun _ _ => trivial

end Value

/-! ## Native functions -/

/-- What a routine has at hand lies in a sphere. -/
structure Registers.Within (r : Registers) (S : Sphere) : Prop where
  cells : ∀ cell ∈ r.cells, S.cell cell
  values : ∀ v ∈ r.values, S.value v

namespace Registers.Within

variable {r : Registers}

theorem withCell (h : r.Within S) {cell : CellId} (hcell : S.cell cell) : (r.withCell cell).Within S :=
  ⟨List.forall_mem_cons.mpr ⟨hcell, h.cells⟩, h.values⟩

theorem withValue (h : r.Within S) {v : Value} (hv : S.value v) : (r.withValue v).Within S :=
  ⟨h.cells, List.forall_mem_cons.mpr ⟨hv, h.values⟩⟩

theorem holds_required {found : Option α} (h : ∀ a, found = some a → R a) :
    S.Holds (fun _ => Run.required found) R := by
  cases found with
  | some a => exact Sphere.holds_pure (h a rfl)
  | none => exact Sphere.holds_fail (Sphere.fails_of_ne nofun)

theorem holds_cell (h : r.Within S) (register : Nat) : S.Holds (fun _ => r.cell register) S.cell :=
  holds_required fun _ found => h.cells _ (List.mem_of_getElem? found)

theorem holds_value (h : r.Within S) (register : Nat) : S.Holds (fun _ => r.value register) S.value :=
  holds_required fun _ found => h.values _ (List.mem_of_getElem? found)

theorem holds_object (h : r.Within S) (register : Nat) :
    S.Holds (fun _ => r.object register) S.object := by
  refine holds_required fun id found => ?_
  obtain ⟨v, found, refers⟩ := Option.bind_eq_some_iff.mp found
  have hv := h.values v (List.mem_of_getElem? found)
  cases v with
  | object other =>
    cases refers
    exact hv
  | _ => cases refers

end Registers.Within

/-- A deed gets hold of nothing but what is in the sphere, and of what it makes. -/
theorem Deed.holds_perform (deed : Deed) {r : Registers} (h : r.Within S) :
    S.Holds (fun _ => deed.perform r) fun told => told.2.Within S := by
  have change {f : State → State} (hf : ∀ s : State, s.Within S → (f s).Within S) :
      S.Holds (fun _ => (change f >>= fun _ => pure ((), r) : Run (Unit × Registers)))
        fun told => told.2.Within S :=
    (Sphere.holds_change hf).bind fun _ _ => Sphere.holds_pure h
  have plain {α : Type} (f : State → α) : S.Holds (fun _ => look f) fun _ => True :=
    Sphere.holds_look fun _ _ => trivial
  cases deed with
  | read cell =>
    exact (h.holds_cell cell).bind fun _ hid => (Sphere.holds_read hid).bind fun _ hv =>
      Sphere.holds_pure (h.withValue hv)
  | isReadonly cell =>
    exact (h.holds_cell cell).bind fun _ _ => (plain _).bind fun _ _ => Sphere.holds_pure h
  | isSameCell cell other =>
    exact (h.holds_cell cell).bind fun _ _ => (h.holds_cell other).bind fun _ _ =>
      Sphere.holds_pure h
  | isSameValue value other =>
    exact (h.holds_value value).bind fun _ _ => (h.holds_value other).bind fun _ _ =>
      Sphere.holds_pure h
  | functionName function =>
    exact (h.holds_value function).bind fun _ _ => (plain _).bind fun _ _ => Sphere.holds_pure h
  | memberNames object =>
    exact (h.holds_object object).bind fun _ _ => (plain _).bind fun _ _ => Sphere.holds_pure h
  | member object name =>
    refine (h.holds_object object).bind fun id hid => ?_
    refine (Sphere.holds_look (R := fun found => ∀ cell, found = some cell → S.cell cell)
      fun s hs cell found => hs.store.members hid (Dictionary.mem_values_of_get? found)).bind
        fun found hfound => ?_
    cases found with
    | some cell => exact Sphere.holds_pure (h.withCell (hfound cell rfl))
    | none => exact Sphere.holds_pure h
  | parameter key => exact (plain _).bind fun _ _ => Sphere.holds_pure h
  | clock =>
    exact (Sphere.holds_step (R := fun _ => True) fun s hs =>
      ⟨hs.withStore hs.store rfl rfl rfl rfl, trivial⟩).bind fun _ _ => Sphere.holds_pure h
  | literal value => exact Sphere.holds_pure (h.withValue (Value.value_ofLiteral value))
  | newObject =>
    exact (Sphere.holds_step (R := S.object) fun _ hs => hs.newObject).bind fun _ hid =>
      Sphere.holds_pure (h.withValue hid)
  | newCell value readonly =>
    exact (h.holds_value value).bind fun _ hv =>
      (Sphere.holds_step (R := S.cell) fun _ hs => hs.newCell hv readonly).bind fun _ hid =>
        Sphere.holds_pure (h.withCell hid)
  | write cell value =>
    exact (h.holds_cell cell).bind fun _ hid => (h.holds_value value).bind fun _ hv =>
      (Sphere.holds_step (R := fun _ => True) fun _ hs => ⟨hs.write hid hv, trivial⟩).bind
        fun _ _ => Sphere.holds_pure h
  | addMember object name cell =>
    exact (h.holds_object object).bind fun id _ => (h.holds_cell cell).bind fun _ hcell =>
      (Sphere.holds_step (R := fun _ => True) fun _ hs =>
        ⟨hs.addMember id name hcell, trivial⟩).bind fun _ _ => Sphere.holds_pure h
  | putMember object name cell =>
    exact (h.holds_object object).bind fun id _ => (h.holds_cell cell).bind fun _ hcell =>
      change fun _ hs => hs.putMember id name hcell
  | respond _ | addHeader _ _ | log _ =>
    exact change fun _ hs => ⟨hs.store, hs.frames, hs.objects, hs.depth, hs.limit⟩
  | fail refusal place =>
    exact fun _ _ => conforms_of_failed (fun _ => rfl) fun _ d => refusal.own d.path

/-- By induction on the routine. -/
theorem Routine.holds_run : ∀ (routine : Routine) {r : Registers}, r.Within S →
    S.Holds (fun _ => routine.run r) S.cell
  | .answer cell, _, h => h.holds_cell cell
  | .act deed next, _, h =>
    (deed.holds_perform h).bind fun (reply, _) h => holds_run (next reply) h
  | .native name service next, r, h => by
    have made : S.callable (.native name ⟨service⟩ r.cells) := h.cells
    exact (Sphere.holds_step (R := S.function) fun _ hs => hs.newFunction made).bind fun _ hid =>
      holds_run next (h.withValue hid)

/-- A native function gets hold of the cells of its arguments and of those that it holds. -/
theorem Service.holds_call (service : Service) {held args : List CellId}
    (hheld : ∀ cell ∈ held, S.cell cell) (hargs : ∀ cell ∈ args, S.cell cell) :
    S.Holds (fun _ => service.call held args) S.cell :=
  (service.routine args.length).holds_run ⟨List.forall_mem_append.mpr ⟨hargs, hheld⟩, nofun⟩

/-! ## Declarations -/

theorem Procedure.holds_declare {decl : Procedure} (h : Stmt.EveryIn S.code decl.body) :
    S.Holds (fun _ => decl.declare c) fun _ => True := by
  refine (Sphere.Holds.about (Sphere.holds_look (R := fun _ => True) fun _ _ => trivial)).bind
    fun here _ => ?_
  split
  · refine Sphere.holds_fail (Sphere.fails_of_head ?_)
    simp [String.toList_append]
  · have made : S.callable (.script decl c) := h
    exact (Sphere.holds_step (R := S.function) fun _ hs => hs.newFunction made).bind
      fun id hid => (Sphere.holds_declare (v := .function id) hid).bind fun _ _ =>
        Sphere.holds_pure trivial

mutual

theorem Stmt.holds_declare : ∀ {stmt : Stmt}, stmt.Every S.code →
    S.Holds (fun _ => stmt.declare c) fun _ => True
  | .dim .., _ => (Sphere.holds_declare (v := .empty) trivial).bind fun _ _ =>
    Sphere.holds_pure trivial
  | .const .., _ => (Sphere.holds_declare (Value.value_ofLiteral _)).bind fun _ _ =>
    Sphere.holds_pure trivial
  | .procedure _ decl, h => Procedure.holds_declare (h.inside _ List.mem_cons_self)
  | .block _ body, h | .loop _ _ body _ _, h | .count _ _ _ _ _ body, h | .forEach _ _ _ body, h
  | .withObject _ _ body, h | .property _ _ (.mk _ _ _ body _) _, h =>
    have hbody : Stmt.EveryIn S.code body := h.inside _ List.mem_cons_self
    Stmt.holds_declareBody hbody
  | .includeFile _ _ (some body), h =>
    have hbody : Stmt.EveryIn S.code body := h.attached rfl
    Stmt.holds_declareBody hbody
  | .branch _ _ thenBody elseBody, h =>
    have hthen : Stmt.EveryIn S.code thenBody := h.inside _ (by simp [Stmt.bodies])
    have helse : Stmt.EveryIn S.code elseBody := h.inside _ (by simp [Stmt.bodies])
    (Stmt.holds_declareBody hthen).bind fun _ _ => Stmt.holds_declareBody helse
  | .select _ _ cases, h =>
    have hcases : ∀ body ∈ cases.map Case.body, Stmt.EveryIn S.code body := h.inside
    Stmt.holds_declareCases hcases
  | .assign .., _ | .call .., _ | .redim .., _ | .classDecl .., _ | .exit .., _ | .onError .., _
  | .optionExplicit .., _ | .includeFile _ _ none, _ => Sphere.holds_pure trivial

theorem Stmt.holds_declareBody : ∀ {body : List Stmt}, Stmt.EveryIn S.code body →
    S.Holds (fun _ => Stmt.declareBody c body) fun _ => True
  | [], _ => Sphere.holds_pure trivial
  | stmt :: rest, h => by
    obtain ⟨hstmt, hrest⟩ := Stmt.everyIn_cons.mp h
    exact ((Stmt.holds_declare hstmt).within _).bind fun _ _ => Stmt.holds_declareBody hrest

theorem Stmt.holds_declareCases : ∀ {cases : List Case},
    (∀ body ∈ cases.map Case.body, Stmt.EveryIn S.code body) →
      S.Holds (fun _ => Stmt.declareCases c cases) fun _ => True
  | [], _ => Sphere.holds_pure trivial
  | .mk _ body :: rest, h => by
    obtain ⟨hbody, hrest⟩ := List.forall_mem_cons.mp h
    have hbody : Stmt.EveryIn S.code body := hbody
    exact (Stmt.holds_declareBody hbody).bind fun _ _ =>
      Stmt.holds_declareCases hrest

end

end PageScript
