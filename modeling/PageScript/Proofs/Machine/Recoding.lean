import PageScript.Proofs.Machine.Passing
import PageScript.Proofs.Syntax.Applying

/-!
# Proofs/Machine/Recoding — states that differ in the code of their functions

Two states are recodings of each other if they are the same but for the bodies of the procedures in
their function tables, which differ as `Procedure.Applies` says.  Every step that does not look into
a procedure does the same from both, so runs built from such steps end in the same way: with the same
result or a fault of the same kind.  A `Slack` says which of two runs may reach its bound first.
-/

namespace PageScript

open Run

/-- What is found in two related lists at the same place is related. -/
theorem List.rel_getElem?_of_forall₂ {α β : Type} {R : α → β → Prop} :
    ∀ {as : List α} {bs : List β}, List.Forall₂ R as bs → ∀ n : Nat, Option.Rel R as[n]? bs[n]?
  | _, _, .nil, _ => .none
  | _, _, .cons h _, 0 => .some h
  | _, _, .cons _ rest, n + 1 => rel_getElem?_of_forall₂ rest n

variable {P : Expr → Prop}

/-! ## States -/

/-- The same function, up to references in its body that are applied. -/
inductive Callable.Applies (P : Expr → Prop) : Callable → Callable → Prop
  | native {name : Name} {service : Service} {held : List CellId} :
    Applies P (.native name service held) (.native name service held)
  | script {decl decl' : Procedure} {home : FrameId} (h : decl.Applies P decl') :
    Applies P (.script decl home) (.script decl' home)

theorem Callable.Applies.refl (f : Callable) : f.Applies P f := by
  cases f with
  | native => exact .native
  | script => exact .script (.refl _)

theorem Callable.Applies.name_eq {f f' : Callable} (h : f.Applies P f') : f'.name = f.name := by
  cases h with
  | native => rfl
  | script h => cases h; rfl

/-- The store with other functions. -/
def Store.withFunctions : Store → Array Callable → Store
  | ⟨cells, objects, _⟩, functions => ⟨cells, objects, functions⟩

/-- The state with other functions. -/
def State.withFunctions (s : State) (functions : Array Callable) : State :=
  s.mapStore (·.withFunctions functions)

/-- The same state but for the code of its functions. -/
structure State.Recodes (P : Expr → Prop) (s t : State) : Prop where
  functions : List.Forall₂ (Callable.Applies P) s.store.functions.toList t.store.functions.toList
  same : t = s.withFunctions t.store.functions

namespace State.Recodes

variable {s t : State}

theorem refl (s : State) : s.Recodes P s where
  functions := List.forall₂_same.mpr fun f _ => .refl f
  same := rfl

/-- The other state by its functions. -/
theorem exists_functions (h : s.Recodes P t) : ∃ fs : Array Callable, t = s.withFunctions fs ∧
    List.Forall₂ (Callable.Applies P) s.store.functions.toList fs.toList :=
  ⟨t.store.functions, h.same, h.functions⟩

/-- Whatever does not read the functions is the same. -/
theorem eq_of {α : Type} (h : s.Recodes P t) {f : State → α}
    (blind : ∀ fs, f (s.withFunctions fs) = f s) : f t = f s := by
  obtain ⟨fs, rfl, -⟩ := h.exists_functions
  exact blind fs

/-- Whatever changes the state without reading or changing its functions goes on alike. -/
theorem change (h : s.Recodes P t) {f : State → State}
    (blind : ∀ fs, f (s.withFunctions fs) = (f s).withFunctions fs)
    (kept : (f s).store.functions = s.store.functions) : (f s).Recodes P (f t) := by
  obtain ⟨fs, rfl, related⟩ := h.exists_functions
  rw [blind fs]
  exact ⟨kept ▸ related, rfl⟩

theorem read_eq (h : s.Recodes P t) (cell : CellId) : t.store.read cell = s.store.read cell :=
  h.eq_of (f := (·.store.read cell)) fun _ => rfl

theorem isFull_eq (h : s.Recodes P t) : t.isFull = s.isFull := h.eq_of (f := State.isFull) fun _ => rfl

theorem frames_eq (h : s.Recodes P t) : t.frames = s.frames := h.eq_of (f := State.frames) fun _ => rfl

theorem limit_eq (h : s.Recodes P t) : t.limit = s.limit := h.eq_of (f := State.limit) fun _ => rfl

theorem objects_eq (h : s.Recodes P t) : t.objects = s.objects :=
  h.eq_of (f := State.objects) fun _ => rfl

theorem withObjects (h : s.Recodes P t) (objects : List CellId) :
    { s with objects := objects }.Recodes P { t with objects := objects } :=
  h.change (f := fun s => { s with objects := objects }) (fun _ => rfl) rfl

theorem leave (h : s.Recodes P t) (frame : FrameId) : (s.leave frame).Recodes P (t.leave frame) :=
  h.change (f := (·.leave frame)) (fun _ => rfl) rfl

/-- The same number finds functions that differ in their code only. -/
theorem function? (h : s.Recodes P t) (id : FunctionId) :
    Option.Rel (Callable.Applies P) (s.store.function? id) (t.store.function? id) := by
  rw [Store.function?, Store.function?, ← Array.getElem?_toList, ← Array.getElem?_toList]
  exact List.rel_getElem?_of_forall₂ h.functions id.index

theorem nameOf?_eq (h : s.Recodes P t) (value : Value) : t.store.nameOf? value = s.store.nameOf? value := by
  cases value with
  | function id =>
    have found := h.function? id
    unfold Store.nameOf?
    dsimp only
    generalize s.store.function? id = f, t.store.function? id = f' at found
    cases found with
    | none => rfl
    | some hf => exact congrArg some hf.name_eq
  | _ => rfl

/-- A new function has the same number. -/
theorem newFunction (h : s.Recodes P t) {f f' : Callable} (hf : f.Applies P f') :
    (s.newFunction f).1 = (t.newFunction f').1 ∧
      (s.newFunction f).2.Recodes P (t.newFunction f').2 := by
  obtain ⟨fs, rfl, related⟩ := h.exists_functions
  have size : s.store.functions.size = fs.size := by
    simpa only [Array.length_toList] using related.length_eq
  refine ⟨congrArg FunctionId.mk size, ?_, rfl⟩
  change List.Forall₂ _ (s.store.functions.push f).toList (fs.push f').toList
  rw [Array.toList_push, Array.toList_push]
  exact List.rel_append related (.cons hf .nil)

end State.Recodes

/-- Parameters are bound without a look at the functions. -/
theorem State.bindAll_withFunctions (frame : FrameId) (fs : Array Callable) :
    ∀ (pairs : List (Param × CellId)) (s : State),
      pairs.foldl (fun s (p, cell) => s.bind frame p.name cell) (s.withFunctions fs) =
        (pairs.foldl (fun s (p, cell) => s.bind frame p.name cell) s).withFunctions fs
  | [], _ => rfl
  | (p, cell) :: rest, s => bindAll_withFunctions frame fs rest (s.bind frame p.name cell)

/-- The body of the same procedure starts in the same state but for the code of the functions. -/
theorem State.Recodes.calling {s t : State} {decl decl' : Procedure} (h : s.Recodes P t)
    (hdecl : decl.Applies P decl') (home : FrameId) (cells : List CellId) :
    (s.calling decl home cells).Recodes P (t.calling decl' home cells) := by
  cases hdecl with
  | @intro name kind params body _ access _ =>
    exact h.change (f := fun s => s.calling (.mk name kind params body access) home cells)
      (fun fs => State.bindAll_withFunctions _ fs _ (s.entered (.mk name kind params body access) home))
      ((congrArg Store.functions (State.store_calling (t := s))).trans rfl)

/-- The same value calls the same procedure, up to its body. -/
theorem State.Recodes.bareCall? {s t : State} (h : s.Recodes P t) (value : Value) :
    Option.Rel (fun p q => p.1.Applies P q.1 ∧ p.2 = q.2) (s.store.bareCall? value)
      (t.store.bareCall? value) := by
  unfold Store.bareCall?
  split
  · rename_i id
    have found := h.function? id
    generalize s.store.function? id = f, t.store.function? id = f' at found
    cases found with
    | none => exact .none
    | some hf =>
      cases hf with
      | native => exact .none
      | script hdecl =>
        cases hdecl with
        | @intro _ _ params _ _ _ hbody =>
          cases params with
          | nil => exact .some ⟨.intro hbody, rfl⟩
          | cons => exact .none
  · exact .none

namespace Store

variable (s : Store) (id : ObjectId) (name : Name)

theorem functions_memberOrNew : (s.memberOrNew id name).2.functions = s.functions := by
  unfold memberOrNew
  split <;> rfl

theorem memberOrNew_withFunctions (fs : Array Callable) :
    (s.withFunctions fs).memberOrNew id name =
      ((s.memberOrNew id name).1, (s.memberOrNew id name).2.withFunctions fs) := by
  have same : (s.withFunctions fs).members id = s.members id := rfl
  unfold memberOrNew
  rw [same]
  cases (s.members id).get? name.text <;> rfl

end Store

namespace State

variable (s : State) (fs : Array Callable)

theorem functions_write (cell : CellId) (value : Value) :
    (s.write cell value).2.store.functions = s.store.functions := by
  unfold write
  split <;> rfl

theorem write_withFunctions (cell : CellId) (value : Value) : (s.withFunctions fs).write cell value =
    ((s.write cell value).1, (s.write cell value).2.withFunctions fs) := by
  have same : (s.withFunctions fs).store.isReadonly cell = s.store.isReadonly cell := rfl
  unfold write
  rw [same]
  split <;> rfl

theorem functions_addMember (id : ObjectId) (name : Name) (cell : CellId) :
    (s.addMember id name cell).2.store.functions = s.store.functions := by
  obtain same | ⟨-, same⟩ := s.addMember_cases id name cell <;> rw [same]
  rfl

theorem addMember_withFunctions (id : ObjectId) (name : Name) (cell : CellId) :
    (s.withFunctions fs).addMember id name cell =
      ((s.addMember id name cell).1, (s.addMember id name cell).2.withFunctions fs) := by
  cases found : (s.store.members id).get? name.text with
  | some =>
    have found' : ((s.withFunctions fs).store.members id).get? name.text = some _ := found
    rw [addMember_of_get? found, addMember_of_get? found']
  | none =>
    have found' : ((s.withFunctions fs).store.members id).get? name.text = none := found
    rw [addMember_of_get?_eq_none found, addMember_of_get?_eq_none found']
    rfl

end State

/-! ## Runs that do not look at the functions -/

/-- A run that neither reads nor changes the functions. -/
structure Run.Blind {α : Type} (m : Run α) : Prop where
  same : ∀ s fs, m (s.withFunctions fs) = (m s).map (·.withFunctions fs) id
  kept : ∀ s t, (m s).state? = some t → t.store.functions = s.store.functions

namespace Run

variable {α β : Type}

theorem blind_pure (a : α) : (pure a : Run α).Blind := ⟨fun _ _ => rfl, fun _ _ h => by cases h; rfl⟩

theorem blind_failAt (cause : Fault.Cause) (place : Option Span) : (failAt cause place : Run α).Blind :=
  ⟨fun _ _ => rfl, fun _ _ h => by cases h; rfl⟩

theorem blind_fail (cause : Fault.Cause) : (fail cause : Run α).Blind := blind_failAt cause none

theorem blind_required (found : Option α) : (required found).Blind := by
  cases found with
  | some a => exact blind_pure a
  | none => exact blind_fail _

theorem blind_ofExcept (e : Except Fault.Cause α) : (ofExcept e).Blind := by
  cases e with
  | ok a => exact blind_pure a
  | error cause => exact blind_fail cause

theorem blind_look {f : State → α} (h : ∀ s fs, f (s.withFunctions fs) = f s) : (look f).Blind :=
  ⟨fun s fs => congrArg (Outcome.done · (s.withFunctions fs)) (h s fs), fun _ _ h => by cases h; rfl⟩

theorem blind_step {f : State → α × State}
    (h : ∀ s fs, f (s.withFunctions fs) = ((f s).1, (f s).2.withFunctions fs))
    (kept : ∀ s, (f s).2.store.functions = s.store.functions) : (step f).Blind where
  same s fs := congrArg (fun r : α × State => Outcome.done r.1 r.2) (h s fs)
  kept s t ends := by
    cases ends
    exact kept s

theorem blind_change {f : State → State} (h : ∀ s fs, f (s.withFunctions fs) = (f s).withFunctions fs)
    (kept : ∀ s, (f s).store.functions = s.store.functions) : (change f).Blind where
  same s fs := congrArg (Outcome.done ()) (h s fs)
  kept s t ends := by
    cases ends
    exact kept s

theorem Blind.bind {m : Run α} {next : α → Run β} (hm : m.Blind) (hnext : ∀ a, (next a).Blind) :
    (m >>= next).Blind where
  same s fs := by
    have first := hm.same s fs
    cases hr : m s with
    | done a t =>
      rw [hr] at first
      rw [bind_of_done hr, bind_of_done first]
      exact (hnext a).same t fs
    | failed f t =>
      rw [hr] at first
      rw [bind_of_failed hr, bind_of_failed first]
      rfl
    | exhausted =>
      rw [hr] at first
      rw [bind_of_exhausted hr, bind_of_exhausted first]
      rfl
  kept s u ends := by
    cases hr : m s with
    | done a t =>
      rw [bind_of_done hr] at ends
      exact ((hnext a).kept t u ends).trans (hm.kept s t (by rw [hr]; rfl))
    | failed f t =>
      rw [bind_of_failed hr] at ends
      exact hm.kept s u (by rw [hr]; exact ends)
    | exhausted =>
      rw [bind_of_exhausted hr] at ends
      cases ends

theorem Blind.about {m : Run α} (hm : m.Blind) (act : Act) : (Run.about act m).Blind :=
  ⟨hm.same, hm.kept⟩

theorem blind_read (cell : CellId) : (read cell).Blind := blind_look fun _ _ => rfl

theorem blind_newCell (value : Value) : (newCell value).Blind :=
  blind_step (fun _ _ => rfl) fun _ => rfl

theorem blind_write (cell : CellId) (value : Value) (refused : Fault.Cause) :
    (write cell value refused).Blind where
  same s fs := by
    change (if s.store.isReadonly cell then _ else _) = Outcome.map _ _ (if _ then _ else _)
    split <;> rfl
  kept s t ends := by
    have ends : (if s.store.isReadonly cell then Outcome.failed (.of refused) s
        else .done () (s.put cell value)).state? = some t := ends
    split at ends <;> cases ends <;> rfl

theorem blind_respond (f : Response → Response) : (change (·.mapResponse f)).Blind :=
  blind_change (fun _ _ => rfl) fun _ => rfl

theorem blind_declare (c : FrameId) (how : State.Declaration) (name : Name) (value : Value) :
    (declare c how name value).Blind := by
  refine Blind.about ⟨fun s fs => ?_, fun s t ends => ?_⟩ _
  · have same : (s.withFunctions fs).declarationFault? c how name = s.declarationFault? c how name := rfl
    simp only [atomic, through, same]
    cases s.declarationFault? c how name <;> rfl
  · simp only [atomic, through] at ends
    split at ends <;> cases ends <;> rfl

end Run

/-- Native functions look at nothing of a function but its name, which is the same. -/
theorem Deed.blind_perform (deed : Deed) (r : Registers)
    (h : ∀ function, deed ≠ .functionName function) : (deed.perform r).Blind := by
  cases deed with
  | read => exact (blind_required _).bind fun _ => (blind_read _).bind fun _ => blind_pure _
  | isReadonly =>
    exact (blind_required _).bind fun _ => (blind_look fun _ _ => rfl).bind fun _ => blind_pure _
  | isSameCell | isSameValue =>
    exact (blind_required _).bind fun _ => (blind_required _).bind fun _ => blind_pure _
  | functionName function => exact absurd rfl (h function)
  | memberNames =>
    exact (blind_required _).bind fun _ => (blind_look fun _ _ => rfl).bind fun _ => blind_pure _
  | member =>
    refine (blind_required _).bind fun _ => (blind_look fun _ _ => rfl).bind fun found => ?_
    cases found <;> exact blind_pure _
  | parameter => exact (blind_look fun _ _ => rfl).bind fun _ => blind_pure _
  | clock => exact (blind_step (fun _ _ => rfl) fun _ => rfl).bind fun _ => blind_pure _
  | literal => exact blind_pure _
  | newObject => exact (blind_step (fun _ _ => rfl) fun _ => rfl).bind fun _ => blind_pure _
  | newCell =>
    exact (blind_required _).bind fun _ => (blind_step (fun _ _ => rfl) fun _ => rfl).bind fun _ =>
      blind_pure _
  | write =>
    refine (blind_required _).bind fun _ => (blind_required _).bind fun _ =>
      (blind_step (fun s fs => ?_) fun s => ?_).bind fun _ => blind_pure _
    · exact State.write_withFunctions s fs _ _
    · exact State.functions_write s _ _
  | addMember =>
    refine (blind_required _).bind fun _ => (blind_required _).bind fun _ =>
      (blind_step (fun s fs => ?_) fun s => ?_).bind fun _ => blind_pure _
    · exact State.addMember_withFunctions s fs _ _ _
    · exact State.functions_addMember s _ _ _
  | putMember object name cell =>
    exact (blind_required _).bind fun id => (blind_required _).bind fun cell =>
      (blind_change (f := (·.putMember id name cell)) (fun _ _ => rfl) fun _ => rfl).bind fun _ =>
        blind_pure _
  | respond text => exact (blind_respond (·.write text)).bind fun _ => blind_pure _
  | addHeader name value => exact (blind_respond (·.addHeader name value)).bind fun _ => blind_pure _
  | log line =>
    exact (blind_change (f := (·.addLine line)) (fun _ _ => rfl) fun _ => rfl).bind fun _ =>
      blind_pure _
  | fail => exact blind_failAt _ _

namespace Evaluator

variable {c : FrameId}

theorem blind_resolve (name : Name) : (Run.step fun s => s.resolve c name true).Blind := by
  refine blind_step (fun s fs => ?_) fun s => ?_
  · have same : (s.withFunctions fs).lookup c name.text = s.lookup c name.text := rfl
    have frames : (s.withFunctions fs).frames = s.frames := rfl
    cases found : s.lookup c name.text with
    | some cell => simp only [State.resolve, same, found]
    | none =>
      simp only [State.resolve, same, frames, found]
      split <;> rfl
  · obtain h | ⟨-, h⟩ := s.resolve_cases c name true
    · rw [h]
    · rw [h]
      rfl

theorem blind_variableCell (name : Name) : (variableCell c name).Blind := by
  refine ((blind_resolve name).about _).bind fun found => ?_
  cases found with
  | some cell => exact blind_pure cell
  | none => exact blind_fail _

theorem blind_enclosingObject : enclosingObject.Blind := by
  refine (blind_look fun _ _ => rfl).bind fun objects => ?_
  split
  · exact blind_read _
  · exact blind_fail _

theorem blind_memberCell (object : Value) (name : Name) : (memberCell object name).Blind := by
  unfold memberCell
  split
  · refine (blind_look fun _ _ => rfl).bind fun found => ?_
    split
    · exact blind_pure _
    · exact blind_fail _
  · exact blind_fail _

theorem blind_memberPlace (object : Value) (name : Name) : (memberPlace object name).Blind := by
  unfold memberPlace
  split
  · rename_i id
    refine blind_step (fun s fs => ?_) fun s => ?_
    · exact congrArg (fun made : CellId × Store => s.stepStore fun _ => made)
        (s.store.memberOrNew_withFunctions id name fs)
    · exact Store.functions_memberOrNew s.store _ name
  · exact blind_fail _

end Evaluator

namespace Run

variable {α : Type} {s t : State}

theorem done_of_ofExcept_done {e : Except Fault.Cause α} {a : α} (h : ofExcept e s = .done a t) :
    e = .ok a ∧ t = s := by
  cases e <;> cases h
  exact ⟨rfl, rfl⟩

theorem done_of_write_done {cell : CellId} {value : Value} {refused : Fault.Cause}
    (h : write cell value refused s = .done () t) :
    s.store.isReadonly cell = false ∧ t = s.put cell value := by
  cases readonly : s.store.isReadonly cell with
  | true => cases (if_pos readonly).symm.trans h
  | false => cases (if_neg (Bool.eq_false_iff.mp readonly)).symm.trans h; exact ⟨rfl, rfl⟩

end Run

/-! ## Two runs that end alike -/

/-- Causes of the same kind.  The texts in which a cause quotes source code may differ. -/
inductive Fault.Cause.Resembles : Fault.Cause → Fault.Cause → Prop
  | same {cause : Fault.Cause} : Resembles cause cause
  | typeMismatch {context context' : String} {found : ValueKind} :
    Resembles (.typeMismatch context found) (.typeMismatch context' found)
  | readonlyWrite {target target' : String} :
    Resembles (.readonlyWrite target) (.readonlyWrite target')

/-- Faults of the same kind, both of them with a place or both without one. -/
structure Fault.Resembles (f f' : Fault) : Prop where
  cause : f.cause.Resembles f'.cause
  placed : f.span.isSome = f'.span.isSome

theorem Fault.Resembles.leaving {f f' : Fault} (h : f.Resembles f') (place place' : Span) :
    (f.leaving place).Resembles (f'.leaving place') := by
  refine ⟨h.cause, ?_⟩
  simp only [Fault.leaving, Option.isSome_or, Option.isSome_some, Bool.or_true]

/-- Which of two runs may reach its bound where the other one goes on. -/
structure Slack where
  left : Prop
  right : Prop

/-- Two outcomes correspond: both are the same result, or faults of the same kind, in states that
differ in the code of their functions.  A run that has the slack may have reached its bound. -/
inductive Outcome.Recodes {α : Type} (P : Expr → Prop) (k : Slack) : Outcome α → Outcome α → Prop
  | done {a : α} {s t : State} (related : s.Recodes P t) : Recodes P k (.done a s) (.done a t)
  | failed {f f' : Fault} {s t : State} (fault : f.Resembles f') (related : s.Recodes P t) :
    Recodes P k (.failed f s) (.failed f' t)
  | exhausted : Recodes P k .exhausted .exhausted
  | left {o : Outcome α} (slack : k.left) : Recodes P k .exhausted o
  | right {o : Outcome α} (slack : k.right) : Recodes P k o .exhausted

namespace Outcome.Recodes

variable {α : Type} {k : Slack} {o o' : Outcome α}

/-- The states and the faults may be changed alike on the way out. -/
theorem map (h : o.Recodes P k o') {onState onState' : State → State} {onFault onFault' : Fault → Fault}
    (states : ∀ {s t : State}, s.Recodes P t → (onState s).Recodes P (onState' t))
    (faults : ∀ {f f' : Fault}, f.Resembles f' → (onFault f).Resembles (onFault' f')) :
    (o.map onState onFault).Recodes P k (o'.map onState' onFault') := by
  cases h with
  | done related => exact .done (states related)
  | failed fault related => exact .failed (faults fault) (states related)
  | exhausted => exact .exhausted
  | left slack => exact .left slack
  | right slack => exact .right slack

/-- The states in which two runs end differ in the code of their functions only. -/
theorem state? {s t : State} (h : o.Recodes P k o') (hs : o.state? = some s)
    (ht : o'.state? = some t) : s.Recodes P t := by
  cases h with
  | done related | failed _ related =>
    cases hs
    cases ht
    exact related
  | exhausted | left => cases hs
  | right => cases ht

/-- If the other run has no slack, it ends where the first one does. -/
theorem eq_exhausted (h : o.Recodes P k .exhausted) (tight : ¬k.right) : o = .exhausted := by
  cases h with
  | exhausted | left => rfl
  | right slack => exact absurd slack tight

/-- If the first run has no slack, it ends where the other one does. -/
theorem exhausted_eq (h : Outcome.exhausted.Recodes P k o) (tight : ¬k.left) : o = .exhausted := by
  cases h with
  | exhausted | right => rfl
  | left slack => exact absurd slack tight

/-- Two runs that end make no use of slack. -/
theorem strict (h : o.Recodes P k o') (ends : o ≠ .exhausted) (ends' : o' ≠ .exhausted) :
    o.Recodes P ⟨False, False⟩ o' := by
  cases h with
  | done related => exact .done related
  | failed fault related => exact .failed fault related
  | exhausted | left => exact absurd rfl ends
  | right => exact absurd rfl ends'

end Outcome.Recodes

namespace Run

variable {α β : Type} {k : Slack} {s t : State} {m m' : Run α}

theorem recodes_of_blind (blind : m.Blind) (related : s.Recodes P t) : (m s).Recodes P k (m t) := by
  obtain ⟨fs, rfl, functions⟩ := related.exists_functions
  rw [blind.same]
  have kept := blind.kept s
  cases hr : m s with
  | done a u => exact .done ⟨kept u (by rw [hr]; rfl) ▸ functions, rfl⟩
  | failed f u => exact .failed ⟨.same, rfl⟩ ⟨kept u (by rw [hr]; rfl) ▸ functions, rfl⟩
  | exhausted => exact .exhausted

theorem recodes_pure (a : α) (related : s.Recodes P t) :
    ((pure a : Run α) s).Recodes P k ((pure a : Run α) t) :=
  .done related

theorem recodes_fail {cause cause' : Fault.Cause} (h : cause.Resembles cause') (related : s.Recodes P t) :
    ((fail cause : Run α) s).Recodes P k ((fail cause' : Run α) t) :=
  .failed ⟨h, rfl⟩ related

theorem recodes_step {f g : State → α × State} (same : (f s).1 = (g t).1)
    (made : (f s).2.Recodes P (g t).2) : (step f s).Recodes P k (step g t) := by
  have right : step g t = .done (f s).1 (g t).2 := by
    rw [same]
    rfl
  rw [right]
  exact .done made

/-- Two rows of runs end alike if the first ones do, and from every result what is behind them. -/
theorem recodes_bind {next next' : α → Run β} (hm : (m s).Recodes P k (m' t))
    (hnext : ∀ a u v, m s = .done a u → m' t = .done a v → u.Recodes P v →
      (next a u).Recodes P k (next' a v)) :
    ((m >>= next) s).Recodes P k ((m' >>= next') t) := by
  generalize hr : m s = o, hr' : m' t = o' at hm
  cases hm with
  | done related =>
    rw [bind_of_done hr, bind_of_done hr']
    exact hnext _ _ _ hr hr' related
  | failed fault related =>
    rw [bind_of_failed hr, bind_of_failed hr']
    exact .failed fault related
  | exhausted =>
    rw [bind_of_exhausted hr, bind_of_exhausted hr']
    exact .exhausted
  | left slack =>
    rw [bind_of_exhausted hr]
    exact .left slack
  | right slack =>
    rw [bind_of_exhausted hr']
    exact .right slack

/-- The same blind run at the front. -/
theorem recodes_bind_blind {next next' : α → Run β} (blind : m.Blind) (related : s.Recodes P t)
    (hnext : ∀ a u v, m s = .done a u → u.Recodes P v → (next a u).Recodes P k (next' a v)) :
    ((m >>= next) s).Recodes P k ((m >>= next') t) :=
  recodes_bind (recodes_of_blind blind related) fun a u v hr _ => hnext a u v hr

/-- Looking something up at the front changes nothing. -/
theorem recodes_bind_look {f : State → α} {next next' : α → Run β}
    (hnext : (next (f s) s).Recodes P k (next' (f t) t)) :
    ((look f >>= next) s).Recodes P k ((look f >>= next') t) := by
  have left : (look f >>= next) s = next (f s) s := bind_of_done rfl
  have right : (look f >>= next') t = next' (f t) t := bind_of_done rfl
  rw [left, right]
  exact hnext

/-- What a refused write quotes of the target may differ. -/
theorem recodes_write {cell : CellId} {value : Value} {refused refused' : Fault.Cause}
    (h : refused.Resembles refused') (related : s.Recodes P t) :
    (write cell value refused s).Recodes P k (write cell value refused' t) := by
  have readonly : t.store.isReadonly cell = s.store.isReadonly cell :=
    related.eq_of (f := (·.store.isReadonly cell)) fun _ => rfl
  change (if _ then _ else _ : Outcome Unit).Recodes P k (if t.store.isReadonly cell then _ else _)
  rw [readonly]
  split
  · exact .failed ⟨h, rfl⟩ related
  · exact .done (related.change (f := (·.put cell value)) (fun _ => rfl) rfl)

theorem recodes_within (h : (m s).Recodes P k (m' t)) (place place' : Span) :
    (within place m s).Recodes P k (within place' m' t) := by
  rw [within_eq_map, within_eq_map]
  exact h.map id fun h => h.leaving place place'

theorem recodes_withObject {object : CellId}
    (h : (m { s with objects := object :: s.objects }).Recodes P k
      (m' { t with objects := object :: t.objects })) :
    (withObject object m s).Recodes P k (withObject object m' t) := by
  rw [withObject_eq_map, withObject_eq_map]
  exact h.map (fun h => h.objects_eq ▸ h.withObjects _) id

/-- Loops end alike if their passes do, as long as a condition holds of the states between them. -/
theorem recodes_repeatWhile {pass pass' : Run Bool} {I : State → Prop}
    (hpass : ∀ {u v}, I u → u.Recodes P v → (pass u).Recodes P k (pass' v))
    (kept : ∀ {u w}, I u → pass u = .done true w → I w) :
    ∀ {n m : Nat}, (k.left ∨ m ≤ n) → (k.right ∨ n ≤ m) → ∀ {s t}, I s → s.Recodes P t →
      (repeatWhile n pass s).Recodes P k (repeatWhile m pass' t)
  | 0, m, hleft, hright, _, _, _, _ => by
    obtain left | none := hleft
    · exact .left left
    · obtain rfl := Nat.le_zero.mp none
      exact .exhausted
  | n + 1, 0, hleft, hright, _, _, _, _ => .right (hright.resolve_right (Nat.not_succ_le_zero n))
  | n + 1, m + 1, hleft, hright, _, _, hI, related => by
    refine recodes_bind (hpass hI related) fun again u v hr _ related' => ?_
    cases again with
    | true =>
      exact recodes_repeatWhile hpass kept (hleft.imp_right Nat.le_of_succ_le_succ)
        (hright.imp_right Nat.le_of_succ_le_succ) (kept hI hr) related'
    | false => exact recodes_pure () related'

end Run

/-! ## Native functions -/

section

variable {k : Slack} {s t : State}

theorem Deed.recodes_perform (deed : Deed) (r : Registers) (related : s.Recodes P t) :
    (deed.perform r s).Recodes P k (deed.perform r t) := by
  by_cases names : ∃ function, deed = .functionName function
  · obtain ⟨function, rfl⟩ := names
    refine recodes_bind_blind (blind_required _) related fun value _ _ _ related =>
      recodes_bind_look ?_
    rw [related.nameOf?_eq]
    exact recodes_pure _ related
  · exact recodes_of_blind (deed.blind_perform r fun function same => names ⟨function, same⟩) related

/-- By induction on the routine. -/
theorem Routine.recodes_run : ∀ (routine : Routine) (r : Registers) {s t : State}, s.Recodes P t →
    (routine.run r s).Recodes P k (routine.run r t)
  | .answer _, _, _, _, related => recodes_of_blind (blind_required _) related
  | .act deed next, r, _, _, related =>
    recodes_bind (deed.recodes_perform r related) fun told _ _ _ _ =>
      recodes_run (next told.1) told.2
  | .native name service next, r, _, _, related => by
    obtain ⟨same, made⟩ :=
      related.newFunction (Callable.Applies.refl (.native name ⟨service⟩ r.cells))
    exact recodes_bind (recodes_step same made) fun id _ _ _ _ =>
      recodes_run next (r.withValue (.function id))

/-- **Native functions do the same**: what they say of a function is its name. -/
theorem Service.recodes_call (service : Service) (held args : List CellId) (related : s.Recodes P t) :
    (service.call held args s).Recodes P k (service.call held args t) :=
  Routine.recodes_run _ _ related

end

/-! ## Declarations -/

section

variable {k : Slack} {c : FrameId} {s t : State}

theorem Procedure.Applies.name_eq {decl decl' : Procedure} (h : decl.Applies P decl') :
    decl'.name = decl.name := by
  cases h
  rfl

theorem Procedure.Applies.params_eq {decl decl' : Procedure} (h : decl.Applies P decl') :
    decl'.params = decl.params := by
  cases h
  rfl

theorem Procedure.Applies.recodes_declare {decl decl' : Procedure} (h : decl.Applies P decl')
    (related : s.Recodes P t) : (decl.declare c s).Recodes P k (decl'.declare c t) := by
  refine recodes_bind_blind ((blind_look fun _ _ => rfl).about _) related fun here u v _ related => ?_
  rw [h.name_eq]
  split
  · exact recodes_fail .same related
  · obtain ⟨same, made⟩ := related.newFunction (Callable.Applies.script h)
    refine recodes_bind (recodes_step same made) fun _ _ _ _ _ related => ?_
    exact recodes_bind_blind (blind_declare _ _ _ _) related fun _ _ _ _ => recodes_pure ()

mutual

theorem Stmt.Applies.recodes_declare : ∀ {stmt stmt' : Stmt}, stmt.Applies P stmt' → ∀ {s t : State},
    s.Recodes P t → (stmt.declare c s).Recodes P k (stmt'.declare c t)
  | _, _, .dim, _, _, related | _, _, .const, _, _, related =>
    recodes_bind_blind (blind_declare _ _ _ _) related fun _ _ _ _ => recodes_pure ()
  | _, _, .procedure h, _, _, related => h.recodes_declare related
  | _, _, .property (.intro h), _, _, related | _, _, .block h, _, _, related
  | _, _, .loop _ h, _, _, related | _, _, .count _ _ _ h, _, _, related
  | _, _, .forEach _ h, _, _, related | _, _, .withObject _ h, _, _, related
  | _, _, .attached h, _, _, related => h.recodes_declareBody related
  | _, _, .branch _ hthen helse, _, _, related =>
    recodes_bind (hthen.recodes_declareBody related) fun _ _ _ _ _ => helse.recodes_declareBody
  | _, _, .select _ h, _, _, related => h.recodes_declareCases related
  | _, _, .assign _ _, _, _, related | _, _, .call _, _, _, related | _, _, .redim _, _, _, related
  | _, _, .classDecl _, _, _, related | _, _, .exit, _, _, related | _, _, .onError, _, _, related
  | _, _, .optionExplicit, _, _, related | _, _, .unattached, _, _, related => recodes_pure () related

theorem Stmt.AppliesAll.recodes_declareBody : ∀ {body body' : List Stmt},
    Stmt.AppliesAll P body body' → ∀ {s t : State}, s.Recodes P t →
      (Stmt.declareBody c body s).Recodes P k (Stmt.declareBody c body' t)
  | _, _, .nil, _, _, related => recodes_pure () related
  | _, _, .cons h hrest, _, _, related =>
    recodes_bind (recodes_within (h.recodes_declare related) _ _) fun _ _ _ _ _ =>
      hrest.recodes_declareBody

theorem Stmt.AppliesCases.recodes_declareCases : ∀ {cases cases' : List Case},
    Stmt.AppliesCases P cases cases' → ∀ {s t : State}, s.Recodes P t →
      (Stmt.declareCases c cases s).Recodes P k (Stmt.declareCases c cases' t)
  | _, _, .nil, _, _, related => recodes_pure () related
  | _, _, .otherwise h hrest, _, _, related | _, _, .cons _ h hrest, _, _, related =>
    recodes_bind (h.recodes_declareBody related) fun _ _ _ _ _ => hrest.recodes_declareCases

end

end

end PageScript
