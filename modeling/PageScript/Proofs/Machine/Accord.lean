import PageScript.Proofs.Machine.Framewise
import PageScript.Proofs.Machine.Pairing

/-!
# Proofs/Machine/Accord — runs of the same code from states that look the same

A relation between states under a pairing is an *accord* if related states look the same to a script
and every single step takes them to related states, perhaps under a pairing with more pairs.  Two runs
accord if from related states they end in the same way: with corresponding results or with the very
same fault, in related states.  There is one rule for each way to build a run; native functions and
declarations follow from the rules.
-/

namespace PageScript

variable {α α' β β' : Type} {H : Pairing → State → State → Prop} {π : Pairing}

/-! ## Accords -/

/-- States that are related under a pairing look the same, and every step takes them to related ones. -/
structure Accord (H : Pairing → State → State → Prop) : Prop where
  oneCell : ∀ {π s t}, H π s t → Relator.BiUnique π.cell
  oneObject : ∀ {π s t}, H π s t → Relator.BiUnique π.object
  oneFunction : ∀ {π s t}, H π s t → Relator.BiUnique π.function
  cell : ∀ {π s t a b}, H π s t → π.cell a b → (s.store.cell a).Twins π (t.store.cell b)
  members : ∀ {π s t a b}, H π s t → π.object a b →
    (s.store.members a).Twins π.cell (t.store.members b)
  function? : ∀ {π s t a b}, H π s t → π.function a b →
    Option.Rel (Callable.Twins π) (s.store.function? a) (t.store.function? b)
  frames : ∀ {π s t}, H π s t → s.frames.Pointwise (Frame.Peers π.cell) t.frames
  objects : ∀ {π s t}, H π s t → List.Forall₂ π.cell s.objects t.objects
  depth : ∀ {π s t}, H π s t → s.depth = t.depth
  limit : ∀ {π s t}, H π s t → s.limit = t.limit
  request : ∀ {π s t}, H π s t → s.world.request = t.world.request
  clock : ∀ {π s t}, H π s t → s.world.clock = t.world.clock
  newCell : ∀ {π s t v w}, H π s t → v.Twins π w → ∀ readonly, ∃ ρ, π ≤ ρ ∧
    H ρ (s.newCell v readonly).2 (t.newCell w readonly).2 ∧
      ρ.cell (s.newCell v readonly).1 (t.newCell w readonly).1
  newObject : ∀ {π s t}, H π s t → ∃ ρ, π ≤ ρ ∧ H ρ s.newObject.2 t.newObject.2 ∧
    ρ.object s.newObject.1 t.newObject.1
  newFunction : ∀ {π s t f g}, H π s t → f.Twins π g → ∃ ρ, π ≤ ρ ∧
    H ρ (s.newFunction f).2 (t.newFunction g).2 ∧ ρ.function (s.newFunction f).1 (t.newFunction g).1
  memberOrNew : ∀ {π s t a b}, H π s t → π.object a b → ∀ name, ∃ ρ, π ≤ ρ ∧
    H ρ (s.memberOrNew a name).2 (t.memberOrNew b name).2 ∧
      ρ.cell (s.memberOrNew a name).1 (t.memberOrNew b name).1
  putMember : ∀ {π s t a b d e}, H π s t → π.object a b → π.cell d e → ∀ name,
    H π (s.putMember a name d) (t.putMember b name e)
  tick : ∀ {π s t}, H π s t → H π s.tick.2 t.tick.2
  put : ∀ {π s t a b v w}, H π s t → π.cell a b → v.Twins π w → H π (s.put a v) (t.put b w)
  bind : ∀ {π s t a b}, H π s t → π.cell a b → ∀ id name, H π (s.bind id name a) (t.bind id name b)
  setExplicit : ∀ {π s t}, H π s t → ∀ id on,
    H π (s.mapFrames (·.setExplicit id on)) (t.mapFrames (·.setExplicit id on))
  setProcedure : ∀ {π s t}, H π s t → ∀ id name,
    H π (s.mapFrames (·.setProcedure id name)) (t.mapFrames (·.setProcedure id name))
  respond : ∀ {π s t}, H π s t → ∀ text,
    H π (s.mapResponse (·.write text)) (t.mapResponse (·.write text))
  addHeader : ∀ {π s t}, H π s t → ∀ name value,
    H π (s.mapResponse (·.addHeader name value)) (t.mapResponse (·.addHeader name value))
  addLine : ∀ {π s t}, H π s t → ∀ line, H π (s.addLine line) (t.addLine line)
  withObjects : ∀ {π s t os os'}, H π s t → List.Forall₂ π.cell os os' →
    H π { s with objects := os } { t with objects := os' }
  enter : ∀ {π s t}, H π s t → ∀ parent, H π (s.enter parent).2 (t.enter parent).2
  leave : ∀ {π s t}, H π s t → ∀ id, H π (s.leave id) (t.leave id)

namespace Accord

variable (K : Accord H) {s t : State} {v w : Value} {c : FrameId}

include K

theorem read (h : H π s t) {a b : CellId} (hab : π.cell a b) :
    (s.store.read a).Twins π (t.store.read b) :=
  (K.cell h hab).value

theorem isFull_eq (h : H π s t) : s.isFull = t.isFull := by
  rw [State.isFull, State.isFull, K.limit h, K.depth h]

theorem lookup (h : H π s t) (c : FrameId) (name : String) :
    Option.Rel π.cell (s.lookup c name) (t.lookup c name) :=
  (K.frames h).lookup c name

theorem bareCall?_eq (h : H π s t) (hv : v.Twins π w) :
    s.store.bareCall? v = t.store.bareCall? w := by
  cases hv with
  | plain plain => cases v <;> first | rfl | nomatch plain
  | object => rfl
  | function same =>
    have found := K.function? h same
    unfold Store.bareCall?
    dsimp only
    generalize s.store.function? _ = f, t.store.function? _ = g at found ⊢
    cases found with
    | none => rfl
    | some twins => cases twins <;> rfl

theorem nameOf?_eq (h : H π s t) (hv : v.Twins π w) : s.store.nameOf? v = t.store.nameOf? w := by
  cases hv with
  | plain plain => cases v <;> first | rfl | nomatch plain
  | object => rfl
  | function same =>
    have found := K.function? h same
    unfold Store.nameOf?
    dsimp only
    generalize s.store.function? _ = f, t.store.function? _ = g at found ⊢
    cases found with
    | none => rfl
    | some twins => exact congrArg some twins.name_eq

theorem write (h : H π s t) {a b : CellId} (hab : π.cell a b) (hv : v.Twins π w) :
    H π (s.write a v).2 (t.write b w).2 ∧ (s.write a v).1 = (t.write b w).1 := by
  have same : s.store.isReadonly a = t.store.isReadonly b := (K.cell h hab).readonly
  unfold State.write
  rw [← same]
  split
  · exact ⟨h, rfl⟩
  · exact ⟨K.put h hab hv, rfl⟩

theorem addMember (h : H π s t) {o o' : ObjectId} (ho : π.object o o') {a b : CellId}
    (hab : π.cell a b) (name : Name) :
    H π (s.addMember o name a).2 (t.addMember o' name b).2 ∧
      (s.addMember o name a).1 = (t.addMember o' name b).1 := by
  have found := (K.members h ho).get? name.text
  generalize hs : (s.store.members o).get? name.text = x, ht : (t.store.members o').get? name.text = y
    at found
  cases found with
  | some => rw [State.addMember_of_get? hs, State.addMember_of_get? ht]; exact ⟨h, rfl⟩
  | none =>
    rw [State.addMember_of_get?_eq_none hs, State.addMember_of_get?_eq_none ht]
    exact ⟨K.putMember h ho hab name, rfl⟩

theorem define (h : H π s t) (hv : v.Twins π w) (c : FrameId) (how : State.Declaration) (name : Name) :
    ∃ ρ, π ≤ ρ ∧ H ρ (s.define c how name v).2 (t.define c how name w).2 ∧
      ρ.cell (s.define c how name v).1 (t.define c how name w).1 := by
  obtain ⟨ρ, hle, made, hcell⟩ := K.newCell h hv (how == .readonly)
  exact ⟨ρ, hle, K.bind made hcell c name, hcell⟩

theorem declarationFault?_eq (h : H π s t) (c : FrameId) (how : State.Declaration) (name : Name) :
    s.declarationFault? c how name = t.declarationFault? c how name := by
  have here := (K.frames h).get c
  simp only [State.declarationFault?, here.frozen, here.isSome_eq name.text]

theorem resolve (h : H π s t) (c : FrameId) (name : Name) (mayDeclare : Bool) :
    ∃ ρ, π ≤ ρ ∧ H ρ (s.resolve c name mayDeclare).2 (t.resolve c name mayDeclare).2 ∧
      Option.Rel ρ.cell (s.resolve c name mayDeclare).1 (t.resolve c name mayDeclare).1 := by
  have here := (K.frames h).get c
  have found := K.lookup h c name.text
  unfold State.resolve
  generalize s.lookup c name.text = a, t.lookup c name.text = b at found
  cases found with
  | some hab => exact ⟨π, le_refl π, h, .some hab⟩
  | none =>
    simp only [← here.explicit, ← here.frozen]
    split
    · exact ⟨π, le_refl π, h, .none⟩
    · obtain ⟨ρ, hle, made, hcell⟩ := K.define h (.plain (v := .empty) rfl) c .unique name
      exact ⟨ρ, hle, made, .some hcell⟩

theorem bindAll : ∀ (params : List Param) {as bs : List CellId} {s t : State}, H π s t →
    List.Forall₂ π.cell as bs →
      H π ((params.zip as).foldl (fun s (p, cell) => s.bind c p.name cell) s)
        ((params.zip bs).foldl (fun s (p, cell) => s.bind c p.name cell) t)
  | [], _, _, _, _, h, _ => h
  | _ :: _, _, _, _, _, h, .nil => h
  | p :: params, _, _, _, _, h, .cons hab rest => bindAll params (K.bind h hab c p.name) rest

end Accord

/-! ## Runs that accord -/

/-- Two outcomes correspond: both are results that correspond, or both the same fault, in related
states, or both runs reached the bound on their steps. -/
inductive Outcome.Accords (H : Pairing → State → State → Prop) (π : Pairing)
    (R : Pairing → α → β → Prop) : Outcome α → Outcome β → Prop
  | done {ρ : Pairing} {a : α} {b : β} {s t : State} (le : π ≤ ρ) (related : H ρ s t)
      (result : R ρ a b) : Accords H π R (.done a s) (.done b t)
  | failed {ρ : Pairing} {fault : Fault} {s t : State} (le : π ≤ ρ) (related : H ρ s t) :
    Accords H π R (.failed fault s) (.failed fault t)
  | exhausted : Accords H π R .exhausted .exhausted

namespace Outcome.Accords

variable {ρ : Pairing} {R R' : Pairing → α → β → Prop} {o : Outcome α} {o' : Outcome β}

theorem mono (h : o.Accords H ρ R o') (hle : π ≤ ρ) (hR : ∀ σ a b, R σ a b → R' σ a b) :
    o.Accords H π R' o' := by
  cases h with
  | done le related result => exact .done (le_trans hle le) related (hR _ _ _ result)
  | failed le related => exact .failed (le_trans hle le) related
  | exhausted => exact .exhausted

/-- The states and the faults may be changed alike on the way out. -/
theorem map (h : o.Accords H π R o') {onState onState' : State → State} (onFault : Fault → Fault)
    (hstate : ∀ {ρ s t}, π ≤ ρ → H ρ s t → H ρ (onState s) (onState' t)) :
    (o.map onState onFault).Accords H π R (o'.map onState' onFault) := by
  cases h with
  | done le related result => exact .done le (hstate le related) result
  | failed le related => exact .failed le (hstate le related)
  | exhausted => exact .exhausted

end Outcome.Accords

/-- From states that are related two runs end in corresponding ways. -/
def Run.Accords (H : Pairing → State → State → Prop) (π : Pairing) (m : Run α) (m' : Run β)
    (R : Pairing → α → β → Prop) : Prop :=
  ∀ ρ s t, π ≤ ρ → H ρ s t → (m s).Accords H ρ R (m' t)

/-- The results are the same. -/
def Same (_ : Pairing) (a b : α) : Prop := a = b

/-- The cells correspond one by one. -/
abbrev Pairing.cells (π : Pairing) : List CellId → List CellId → Prop := List.Forall₂ π.cell

/-- Either there is no cell, or there are corresponding ones. -/
abbrev Pairing.cell? (π : Pairing) : Option CellId → Option CellId → Prop := Option.Rel π.cell

namespace Run

variable {R : Pairing → α → β → Prop} {R' : Pairing → α' → β' → Prop} {m : Run α} {m' : Run β}

/-- A pairing of related states is one-to-one. -/
theorem accords_of_biUnique (K : Accord H) (h : Relator.BiUnique π.cell → Relator.BiUnique π.object →
    Relator.BiUnique π.function → m.Accords H π m' R) : m.Accords H π m' R := by
  intro ρ s t le related
  have cell := K.oneCell related
  have object := K.oneObject related
  have function := K.oneFunction related
  refine h ⟨?_, ?_⟩ ⟨?_, ?_⟩ ⟨?_, ?_⟩ ρ s t le related
  · exact fun _ _ _ hab hab' => cell.1 (le.cell hab) (le.cell hab')
  · exact fun _ _ _ hab hab' => cell.2 (le.cell hab) (le.cell hab')
  · exact fun _ _ _ hab hab' => object.1 (le.object hab) (le.object hab')
  · exact fun _ _ _ hab hab' => object.2 (le.object hab) (le.object hab')
  · exact fun _ _ _ hab hab' => function.1 (le.function hab) (le.function hab')
  · exact fun _ _ _ hab hab' => function.2 (le.function hab) (le.function hab')

/-! ### Single steps -/

theorem accords_pure {a : α} {b : β} (h : ∀ ρ, π ≤ ρ → R ρ a b) :
    (pure a : Run α).Accords H π (pure b) R :=
  fun _ _ _ le related => .done (le_refl _) related (h _ le)

theorem accords_same (a : α) : (pure a : Run α).Accords H π (pure a) Same :=
  accords_pure fun _ _ => rfl

theorem accords_failAt (cause : Fault.Cause) (place : Option Span) :
    (failAt cause place : Run α).Accords H π (failAt cause place : Run β) R :=
  fun _ _ _ _ related => .failed (le_refl _) related

theorem accords_fail (cause : Fault.Cause) :
    (fail cause : Run α).Accords H π (fail cause : Run β) R :=
  accords_failAt cause none

theorem accords_exhausted : (exhausted : Run α).Accords H π (exhausted : Run β) R :=
  fun _ _ _ _ _ => .exhausted

theorem accords_ofExcept {e : Except Fault.Cause α} {e' : Except Fault.Cause α}
    {R : Pairing → α → α → Prop} (same : e = e') (h : ∀ ρ a, e = .ok a → R ρ a a) :
    (ofExcept e).Accords H π (ofExcept e') R := by
  subst same
  cases e with
  | ok a => exact fun _ _ _ _ related => .done (le_refl _) related (h _ a rfl)
  | error cause => exact fun _ _ _ _ related => .failed (le_refl _) related

theorem accords_look {p : State → α} {q : State → β}
    (h : ∀ {ρ s t}, π ≤ ρ → H ρ s t → R ρ (p s) (q t)) : (look p).Accords H π (look q) R :=
  fun _ _ _ le related => .done (le_refl _) related (h le related)

theorem accords_change {p q : State → State} (h : ∀ {ρ s t}, π ≤ ρ → H ρ s t → H ρ (p s) (q t)) :
    (change p).Accords H π (change q) Same :=
  fun _ _ _ le related => .done (le_refl _) (h le related) rfl

theorem accords_step {p : State → α × State} {q : State → β × State}
    (h : ∀ {ρ s t}, π ≤ ρ → H ρ s t →
      ∃ σ, ρ ≤ σ ∧ H σ (p s).2 (q t).2 ∧ R σ (p s).1 (q t).1) :
    (step p).Accords H π (step q) R := by
  intro ρ s t le related
  obtain ⟨σ, le', related', result⟩ := h le related
  exact .done le' related' result

/-! ### Runs made of runs -/

theorem Accords.later {ρ : Pairing} (hm : m.Accords H π m' R) (hle : π ≤ ρ) : m.Accords H ρ m' R :=
  fun σ s t le => hm σ s t (le_trans hle le)

theorem Accords.bind {next : α → Run α'} {next' : β → Run β'} (hm : m.Accords H π m' R)
    (hnext : ∀ ρ a b, π ≤ ρ → R ρ a b → (next a).Accords H ρ (next' b) R') :
    (m >>= next).Accords H π (m' >>= next') R' := by
  intro ρ s t le related
  have first := hm ρ s t le related
  generalize hr : m s = o, hr' : m' t = o' at first
  cases first with
  | done le' related' result =>
    rw [bind_of_done hr, bind_of_done hr']
    exact (hnext _ _ _ (le_trans le le') result _ _ _ (le_refl _) related').mono le' fun _ _ _ h => h
  | failed le' related' =>
    rw [bind_of_failed hr, bind_of_failed hr']
    exact .failed le' related'
  | exhausted =>
    rw [bind_of_exhausted hr, bind_of_exhausted hr']
    exact .exhausted

/-- A run that both sides go on from with the same result. -/
theorem Accords.bindSame {m' : Run α} {next : α → Run α'} {next' : α → Run β'}
    (hm : m.Accords H π m' Same) (hnext : ∀ ρ a, π ≤ ρ → (next a).Accords H ρ (next' a) R') :
    (m >>= next).Accords H π (m' >>= next') R' :=
  hm.bind fun ρ a _ le same => same ▸ hnext ρ a le

theorem Accords.ite {p : Prop} [Decidable p] {n : Run α} {n' : Run β} (hm : m.Accords H π m' R)
    (hn : n.Accords H π n' R) : (if p then m else n).Accords H π (if p then m' else n') R := by
  split
  · exact hm
  · exact hn

theorem Accords.about (hm : m.Accords H π m' R) (act act' : Act) :
    (about act m).Accords H π (about act' m') R :=
  hm

theorem Accords.visiting {m : FrameId → Run α} {m' : FrameId → Run β} {c : FrameId}
    (hm : (m c).Accords H π (m' c) R) : (visiting c m).Accords H π (visiting c m') R :=
  hm

theorem Accords.within (hm : m.Accords H π m' R) (place : Span) :
    (within place m).Accords H π (within place m') R := by
  intro ρ s t le related
  rw [within_eq_map, within_eq_map]
  exact (hm ρ s t le related).map _ fun _ h => h

theorem Accords.repeatWhile {pass pass' : Run Bool} :
    ∀ {π} bound, pass.Accords H π pass' Same →
      (repeatWhile bound pass).Accords H π (repeatWhile bound pass') Same
  | _, 0, _ => accords_exhausted
  | _, bound + 1, hpass => hpass.bindSame fun _ again le => by
    cases again with
    | true => exact Accords.repeatWhile bound (hpass.later le)
    | false => exact accords_same ()

end Run

open Run

namespace Accord

variable (K : Accord H) {R : Pairing → α → β → Prop} {m : Run α} {m' : Run β} {v w : Value}
  {a b : CellId}

include K

theorem accords_newCell (hv : v.Twins π w) :
    (Run.newCell v).Accords H π (Run.newCell w) Pairing.cell :=
  accords_step fun le h => K.newCell h (hv.mono le) false

theorem accords_read (hab : π.cell a b) : (Run.read a).Accords H π (Run.read b) Value.Twins :=
  accords_look fun le h => K.read h (le.cell hab)

theorem accords_write (hab : π.cell a b) (hv : v.Twins π w) (refused : Fault.Cause) :
    (Run.write a v refused).Accords H π (Run.write b w refused) Same := by
  intro ρ s t le related
  have same : s.store.isReadonly a = t.store.isReadonly b := (K.cell related (le.cell hab)).readonly
  cases readonly : s.store.isReadonly a with
  | true =>
    have left : Run.write a v refused s = .failed (.of refused) s := if_pos readonly
    have right : Run.write b w refused t = .failed (.of refused) t := if_pos (same ▸ readonly)
    rw [left, right]
    exact .failed (le_refl _) related
  | false =>
    have left : Run.write a v refused s = .done () (s.put a v) :=
      if_neg (readonly ▸ Bool.false_ne_true)
    have right : Run.write b w refused t = .done () (t.put b w) :=
      if_neg (same ▸ readonly ▸ Bool.false_ne_true)
    rw [left, right]
    exact .done (le_refl _) (K.put related (le.cell hab) (hv.mono le)) rfl

theorem accords_withObject (hm : m.Accords H π m' R) (hab : π.cell a b) :
    (Run.withObject a m).Accords H π (Run.withObject b m') R := by
  intro ρ s t le related
  rw [withObject_eq_map, withObject_eq_map]
  have inner := K.withObjects related (.cons (le.cell hab) (K.objects related))
  exact (hm ρ _ _ le inner).map id fun _ h =>
    K.withObjects h (forall₂_tail (K.objects h))

theorem accords_withoutObjects (hm : m.Accords H π m' R) :
    (Run.withoutObjects m).Accords H π (Run.withoutObjects m') R := by
  intro ρ s t le related
  rw [withoutObjects_eq_map, withoutObjects_eq_map]
  exact (hm ρ _ _ le (K.withObjects related .nil)).map id fun le' h =>
    K.withObjects h ((K.objects related).imp fun _ _ => le'.cell)

theorem accords_inCall {parent : FrameId} {m : FrameId → Run α} {m' : FrameId → Run β}
    (hm : ∀ frame, (m frame).Accords H π (m' frame) R) :
    (Run.inCall parent m).Accords H π (Run.inCall parent m') R := by
  intro ρ s t le related
  have same := K.isFull_eq related
  cases full : s.isFull with
  | true =>
    rw [inCall_of_isFull full, inCall_of_isFull (same ▸ full), K.limit related]
    exact .failed (le_refl _) related
  | false =>
    have top : (t.enter parent).1 = (s.enter parent).1 :=
      congrArg FrameId.mk (K.frames related).size.symm
    rw [inCall_eq_map _ full, inCall_eq_map _ (same ▸ full), top]
    exact (hm _ ρ _ _ le (K.enter related parent)).map id fun _ h => K.leave h _

theorem accords_declare (hv : v.Twins π w) (c : FrameId) (how : State.Declaration) (name : Name) :
    (Run.declare c how name v).Accords H π (Run.declare c how name w) Pairing.cell := by
  refine Accords.visiting fun ρ s t le related => ?_
  have same := K.declarationFault?_eq related c how name
  cases free : s.declarationFault? c how name with
  | some cause =>
    simp only [atomic, through, free, same ▸ free]
    exact .failed (le_refl _) related
  | none =>
    simp only [atomic, through, free, same ▸ free]
    obtain ⟨σ, le', defined, hcell⟩ := K.define related (hv.mono le) c how name
    exact .done le' defined hcell

end Accord

/-! ## Native functions -/

/-- Corresponding cells and values are at hand. -/
structure Registers.Twins (π : Pairing) (r r' : Registers) : Prop where
  cells : π.cells r.cells r'.cells
  values : List.Forall₂ (Value.Twins π) r.values r'.values

namespace Registers.Twins

variable {r r' : Registers} {ρ : Pairing}

theorem mono (h : r.Twins π r') (le : π ≤ ρ) : r.Twins ρ r' :=
  ⟨h.cells.imp fun _ _ => le.cell, h.values.imp fun _ _ hv => hv.mono le⟩

theorem withCell (h : r.Twins π r') {a b : CellId} (hab : π.cell a b) :
    (r.withCell a).Twins π (r'.withCell b) :=
  ⟨.cons hab h.cells, h.values⟩

theorem withValue (h : r.Twins π r') {v w : Value} (hv : v.Twins π w) :
    (r.withValue v).Twins π (r'.withValue w) :=
  ⟨h.cells, .cons hv h.values⟩

theorem accords_cell (h : r.Twins π r') (register : Nat) :
    (r.cell register).Accords H π (r'.cell register) Pairing.cell := by
  have found := forall₂_getElem? h.cells register
  unfold Registers.cell
  generalize r.cells[register]? = a, r'.cells[register]? = b at found ⊢
  cases found with
  | some hab => exact accords_pure fun _ le => le.cell hab
  | none => exact accords_fail _

theorem accords_value (h : r.Twins π r') (register : Nat) :
    (r.value register).Accords H π (r'.value register) Value.Twins := by
  have found := forall₂_getElem? h.values register
  unfold Registers.value
  generalize r.values[register]? = v, r'.values[register]? = w at found ⊢
  cases found with
  | some hv => exact accords_pure fun _ le => hv.mono le
  | none => exact accords_fail _

theorem accords_object (h : r.Twins π r') (register : Nat) :
    (r.object register).Accords H π (r'.object register) Pairing.object := by
  have found := forall₂_getElem? h.values register
  unfold Registers.object
  generalize r.values[register]? = v, r'.values[register]? = w at found ⊢
  cases found with
  | none => exact accords_fail _
  | @some v w hv =>
    cases hv with
    | object hid => exact accords_pure fun _ le => le.object hid
    | function => exact accords_fail _
    | plain plain => cases v <;> first | exact accords_fail _ | nomatch plain

end Registers.Twins

/-- The same is told, with corresponding things at hand. -/
def Told {α : Type} (π : Pairing) (told told' : α × Registers) : Prop :=
  told.1 = told'.1 ∧ told.2.Twins π told'.2

/-- A deed tells the same of corresponding things. -/
theorem Deed.accords_perform (K : Accord H) (deed : Deed) {r r' : Registers} (h : r.Twins π r') :
    (deed.perform r).Accords H π (deed.perform r') Told := by
  have same {ρ : Pairing} {α : Type} (le : π ≤ ρ) (told : α) :
      (pure (told, r) : Run (α × Registers)).Accords H ρ (pure (told, r')) Told :=
    accords_pure fun _ le' => ⟨rfl, h.mono (le_trans le le')⟩
  cases deed with
  | read cell =>
    refine (h.accords_cell cell).bind fun _ _ _ le hab => (K.accords_read hab).bind
      fun ρ v w le' hv => ?_
    rw [hv.sight_eq]
    exact accords_pure fun _ le'' =>
      ⟨rfl, (h.mono (le_trans le (le_trans le' le''))).withValue (hv.mono le'')⟩
  | isReadonly cell =>
    refine (h.accords_cell cell).bind fun ρ a b le hab => ?_
    have rule : (look (·.store.isReadonly a)).Accords H ρ (look (·.store.isReadonly b)) Same :=
      accords_look fun le' related => (K.cell related (le'.cell hab)).readonly
    exact rule.bindSame fun _ _ le' => same (le_trans le le') _
  | isSameCell cell other =>
    refine (h.accords_cell cell).bind fun _ a b le hab => (h.mono le |>.accords_cell other).bind
      fun ρ a' b' le' hab' => accords_of_biUnique K fun cells _ _ => ?_
    have told : decide (a = a') = decide (b = b') :=
      decide_eq_decide.mpr (eq_iff_eq_of_biUnique cells (le'.cell hab) hab')
    rw [told]
    exact same (le_trans le le') _
  | isSameValue value other =>
    refine (h.accords_value value).bind fun _ v w le hv => (h.mono le |>.accords_value other).bind
      fun ρ v' w' le' hv' => accords_of_biUnique K fun _ objects functions => ?_
    rw [(hv.mono le').isSame_eq hv' objects functions]
    exact same (le_trans le le') _
  | functionName function =>
    exact (h.accords_value function).bind fun _ _ _ le hv => (accords_look fun le' related =>
      K.nameOf?_eq related (hv.mono le')).bindSame fun _ _ le' => same (le_trans le le') _
  | memberNames object =>
    refine (h.accords_object object).bind fun ρ o o' le hid => ?_
    have names : (look fun s => (s.store.members o).names).Accords H ρ
        (look fun s => (s.store.members o').names) Same :=
      accords_look fun le' related => (K.members related (le'.object hid)).names
    exact names.bindSame fun _ _ le' => same (le_trans le le') _
  | member object name =>
    refine (h.accords_object object).bind fun ρ o o' le hid => ?_
    have found : (look fun s => (s.store.members o).get? name.text).Accords H ρ
        (look fun s => (s.store.members o').get? name.text) Pairing.cell? :=
      accords_look fun le' related => (K.members related (le'.object hid)).get? name.text
    refine found.bind fun _ _ _ le' found => ?_
    cases found with
    | some hab => exact accords_pure fun _ le'' =>
        ⟨rfl, (h.mono (le_trans le (le_trans le' le''))).withCell (le''.cell hab)⟩
    | none => exact same (le_trans le le') _
  | parameter key =>
    exact (accords_look fun _ related => congrArg (·.parameter? key) (K.request related)).bindSame
      fun _ _ le => same le _
  | clock =>
    exact (accords_step fun {_ s t} _ related => ⟨_, le_refl _, K.tick related,
      (congrFun (K.clock related) 0 : s.tick.1 = t.tick.1)⟩).bindSame fun _ _ le => same le _
  | literal value =>
    exact accords_pure fun _ le => ⟨rfl, (h.mono le).withValue (Value.twins_ofLiteral value)⟩
  | newObject =>
    have made : (step (·.newObject)).Accords H π (step (·.newObject)) Pairing.object :=
      accords_step fun _ related => K.newObject related
    exact made.bind fun _ _ _ le hid => accords_pure fun _ le' =>
      ⟨rfl, (h.mono (le_trans le le')).withValue (.object (le'.object hid))⟩
  | newCell value readonly =>
    refine (h.accords_value value).bind fun ρ v w le hv => ?_
    have made : (step (·.newCell v readonly)).Accords H ρ (step (·.newCell w readonly)) Pairing.cell :=
      accords_step fun le' related => K.newCell related (hv.mono le') readonly
    exact made.bind fun _ _ _ le' hab => accords_pure fun _ le'' =>
      ⟨rfl, (h.mono (le_trans le (le_trans le' le''))).withCell (le''.cell hab)⟩
  | write cell value =>
    refine (h.accords_cell cell).bind fun _ a b le hab => (h.mono le |>.accords_value value).bind
      fun ρ v w le' hv => ?_
    have written : (step (·.write a v)).Accords H ρ (step (·.write b w)) Same :=
      accords_step fun le'' related =>
        have ⟨related', same⟩ := K.write related (le''.cell (le'.cell hab)) (hv.mono le'')
        ⟨_, le_refl _, related', same⟩
    exact written.bindSame fun _ _ le'' => same (le_trans le (le_trans le' le'')) _
  | addMember object name cell =>
    refine (h.accords_object object).bind fun _ o o' le hid => (h.mono le |>.accords_cell cell).bind
      fun ρ a b le' hab => ?_
    have added : (step (·.addMember o name a)).Accords H ρ (step (·.addMember o' name b)) Same :=
      accords_step fun le'' related =>
        have ⟨related', same⟩ :=
          K.addMember related (le''.object (le'.object hid)) (le''.cell hab) name
        ⟨_, le_refl _, related', same⟩
    exact added.bindSame fun _ _ le'' => same (le_trans le (le_trans le' le'')) _
  | putMember object name cell =>
    exact (h.accords_object object).bind fun _ _ _ le hid => (h.mono le |>.accords_cell cell).bind
      fun _ _ _ le' hab => (accords_change fun le'' related =>
        K.putMember related (le''.object (le'.object hid)) (le''.cell hab) name).bindSame
          fun _ _ le'' => same (le_trans le (le_trans le' le'')) _
  | respond text =>
    exact (accords_change fun _ related => K.respond related text).bindSame fun _ _ le => same le _
  | addHeader name value =>
    exact (accords_change fun _ related => K.addHeader related name value).bindSame
      fun _ _ le => same le _
  | log line =>
    exact (accords_change fun _ related => K.addLine related line).bindSame fun _ _ le => same le _
  | fail refusal place => exact accords_failAt _ _

/-- By induction on the routine. -/
theorem Routine.accords_run (K : Accord H) : ∀ (routine : Routine) {π : Pairing} {r r' : Registers},
    r.Twins π r' → (routine.run r).Accords H π (routine.run r') Pairing.cell
  | .answer cell, _, _, _, h => h.accords_cell cell
  | .act deed next, _, _, _, h => (deed.accords_perform K h).bind fun _ told _ _ ⟨same, h⟩ => by
    rw [same]
    exact accords_run K (next _) h
  | .native name service next, π, r, r', h => by
    have made : (Run.newNative name ⟨service⟩ r.cells).Accords H π
        (Run.newNative name ⟨service⟩ r'.cells) Pairing.function :=
      accords_step fun le related => K.newFunction related (.native (h.mono le).cells)
    exact made.bind fun _ _ _ le hid => accords_run K next ((h.mono le).withValue (.function hid))

/-- The same native function does the same with corresponding cells. -/
theorem Service.accords_call (K : Accord H) (service : Service) {held held' as bs : List CellId}
    (hheld : π.cells held held') (h : π.cells as bs) :
    (service.call held as).Accords H π (service.call held' bs) Pairing.cell := by
  unfold Service.call
  rw [h.length_eq]
  exact (service.routine bs.length).accords_run K ⟨List.rel_append h hheld, .nil⟩

/-! ## Declarations -/

namespace Accord

variable {c : FrameId}

theorem accords_declareProcedure (K : Accord H) (decl : Procedure) :
    (decl.declare c).Accords H π (decl.declare c) Same := by
  have here : (visiting c fun c => look (·.frames.get c)).Accords H π
      (visiting c fun c => look (·.frames.get c)) fun _ f g => f.procedure = g.procedure :=
    Accords.visiting (accords_look fun _ h => ((K.frames h).get c).procedure)
  refine here.bind fun _ f g _ same => ?_
  rw [same]
  have made {π : Pairing} : (step (·.newFunction (.script decl c))).Accords H π
      (step (·.newFunction (.script decl c))) Pairing.function :=
    accords_step fun _ h => K.newFunction h .script
  exact (accords_fail _).ite (made.bind fun _ _ _ _ hid =>
    (K.accords_declare (.function hid) c .unique decl.name).bind fun _ _ _ _ _ => accords_same ())

mutual

theorem accords_declareStmt (K : Accord H) : ∀ {π : Pairing} (stmt : Stmt),
    (stmt.declare c).Accords H π (stmt.declare c) Same
  | _, .dim .. => (K.accords_declare (.plain rfl) _ _ _).bind fun _ _ _ _ _ => accords_same ()
  | _, .const _ _ value =>
    (K.accords_declare (Value.twins_ofLiteral value) _ _ _).bind fun _ _ _ _ _ => accords_same ()
  | _, .procedure _ decl => K.accords_declareProcedure decl
  | _, .block _ body | _, .loop _ _ body _ _ | _, .count _ _ _ _ _ body | _, .forEach _ _ _ body
  | _, .withObject _ _ body | _, .property _ _ (.mk _ _ _ body _) _
  | _, .includeFile _ _ (some body) => K.accords_declareBody body
  | _, .branch _ _ thenBody elseBody =>
    (K.accords_declareBody thenBody).bindSame fun _ _ _ => K.accords_declareBody elseBody
  | _, .select _ _ cases => K.accords_declareCases cases
  | _, .assign .. | _, .call .. | _, .redim .. | _, .classDecl .. | _, .exit .. | _, .onError ..
  | _, .optionExplicit .. | _, .includeFile _ _ none => accords_same ()

theorem accords_declareBody (K : Accord H) : ∀ {π : Pairing} (body : List Stmt),
    (Stmt.declareBody c body).Accords H π (Stmt.declareBody c body) Same
  | _, [] => accords_same ()
  | _, stmt :: rest =>
    ((K.accords_declareStmt stmt).within _).bindSame fun _ _ _ => K.accords_declareBody rest

theorem accords_declareCases (K : Accord H) : ∀ {π : Pairing} (cases : List Case),
    (Stmt.declareCases c cases).Accords H π (Stmt.declareCases c cases) Same
  | _, [] => accords_same ()
  | _, .mk _ body :: rest =>
    (K.accords_declareBody body).bindSame fun _ _ _ => K.accords_declareCases rest

end

end Accord

end PageScript
