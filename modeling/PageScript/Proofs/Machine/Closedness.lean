import PageScript.Proofs.Machine.Concord
import PageScript.Proofs.Machine.Finishing
import PageScript.Proofs.Machine.Peers

/-!
# Proofs/Machine/Closedness — whatever can be got hold of is there

In a closed state every cell, object and function that can be got hold of has been made.  Such a state
is its own peer, under the pairing of each thing that can be got hold of with itself
(`State.IsClosed.peers`), and what has a peer is there.  A run does what it does itself, so from a
closed state it ends in a closed state, with results that are there (`Run.Accords.closed`).
-/

namespace PageScript

open Run

/-! ## Entries of dictionaries -/

namespace Dictionary

variable {α : Type} {name : Name} {a : α}

/-- What corresponds to something in a list. -/
theorem exists_right_of_mem {β : Type} {r : α → β → Prop} {as : List α} {bs : List β}
    (h : List.Forall₂ r as bs) : ∀ a ∈ as, ∃ b, r a b :=
  ((List.forall₂_and_left as bs).mp (h.imp fun _ b hab => ⟨⟨b, hab⟩, hab⟩)).1

/-- A dictionary is its own twin if its entries are. -/
theorem twins_self {r : α → α → Prop} {d : Dictionary α} (h : ∀ a ∈ d.values, r a a) : d.Twins r d :=
  List.forall₂_same.mpr fun entry hentry => ⟨rfl, h entry.2 (snd_mem_values hentry)⟩

end Dictionary

/-! ## Closed states -/

namespace Value.Twins

variable {π : Pairing} {v : Value}

theorem exists_object {id : ObjectId} (h : (Value.object id).Twins π v) : ∃ other, π.object id other := by
  cases h with
  | plain h => nomatch h
  | object h => exact ⟨_, h⟩

theorem exists_function {id : FunctionId} (h : (Value.function id).Twins π v) :
    ∃ other, π.function id other := by
  cases h with
  | plain h => nomatch h
  | function h => exact ⟨_, h⟩

end Value.Twins

namespace State

/-- An object can be got hold of in a state. -/
def Holds (s : State) (v : Value) : Prop := ∃ cell, s.Reaches cell ∧ s.store.read cell = v

/-- Whatever can be got hold of in a state has been made. -/
structure IsClosed (s : State) : Prop where
  cells : ∀ {cell}, s.Reaches cell → cell.index < s.store.cells.size
  objects : ∀ {id}, s.Holds (.object id) → id.index < s.store.objects.size
  functions : ∀ {id}, s.Holds (.function id) → id.index < s.store.functions.size

/-- Everything that can be got hold of corresponds to itself. -/
def own (s : State) : Pairing where
  cell a b := a = b ∧ s.Reaches a
  object a b := a = b ∧ s.Holds (.object a)
  function a b := a = b ∧ s.Holds (.function a)

variable {s t : State}

theorem twins_own_of_reaches {cell : CellId} (h : s.Reaches cell) :
    (s.store.read cell).Twins s.own (s.store.read cell) := by
  cases hv : s.store.read cell with
  | object id => exact .object ⟨rfl, cell, h, hv⟩
  | function id => exact .function ⟨rfl, cell, h, hv⟩
  | _ => exact .plain rfl

theorem twins_own_of_holds {id : FunctionId} {f : Callable} (h : s.Holds (.function id))
    (stored : s.store.function? id = some f) : f.Twins s.own f := by
  obtain ⟨cell, reached, function⟩ := h
  cases f with
  | native => exact .native (List.forall₂_same.mpr fun _ h => ⟨rfl, .held reached function stored h⟩)
  | script => exact .script

/-- **A closed state is its own peer.** -/
theorem IsClosed.peers (closed : s.IsClosed) : s.Peers s.own s where
  store :=
    { cells := by
        rintro a _ ⟨rfl, reached⟩
        exact ⟨closed.cells reached, closed.cells reached, rfl, twins_own_of_reaches reached⟩
      objects := by
        rintro a _ ⟨rfl, cell, reached, held⟩
        have live := closed.objects ⟨cell, reached, held⟩
        exact ⟨live, live, Dictionary.twins_self fun inner h => ⟨rfl, .member reached held h⟩⟩
      functions := by
        rintro a _ ⟨rfl, held⟩
        have found : s.store.function? a = some _ := Array.getElem?_eq_getElem (closed.functions held)
        exact ⟨_, _, found, found, twins_own_of_holds held found⟩
      oneCell := ⟨fun _ _ _ h h' => h.1.trans h'.1.symm, fun _ _ _ h h' => h.1.symm.trans h'.1⟩
      oneObject := ⟨fun _ _ _ h h' => h.1.trans h'.1.symm, fun _ _ _ h h' => h.1.symm.trans h'.1⟩
      oneFunction := ⟨fun _ _ _ h h' => h.1.trans h'.1.symm, fun _ _ _ h h' => h.1.symm.trans h'.1⟩
      numbered := And.left
      objectCount := rfl }
  frames := ⟨rfl, fun _ => .refl fun _ _ bound => ⟨rfl, .variable bound⟩⟩
  objects := List.forall₂_same.mpr fun cell h => ⟨rfl, .enclosing h⟩
  depth := rfl
  limit := rfl
  request := rfl
  clock := rfl
  response := rfl
  log := rfl

/-- Where no name is bound and no `with` block is open, nothing can be got hold of. -/
theorem isClosed_of_unbound (frames : ∀ id name, (s.frames.get id).bindings.get? name = none)
    (objects : s.objects = []) : s.IsClosed := by
  have unreached {cell : CellId} (reached : s.Reaches cell) : False := by
    induction reached with
    | «variable» bound => nomatch (frames _ _).symm.trans bound
    | enclosing hmem => nomatch objects ▸ hmem
    | member _ _ _ ih | held _ _ _ _ ih => exact ih
  exact ⟨fun reached => (unreached reached).elim, fun ⟨_, reached, _⟩ => (unreached reached).elim,
    fun ⟨_, reached, _⟩ => (unreached reached).elim⟩

variable {π : Pairing}

/-- What can be got hold of in a state has a partner in each peer of it. -/
theorem Peers.exists_cell (h : s.Peers π t) {cell : CellId} (reached : s.Reaches cell) :
    ∃ other, π.cell cell other := by
  induction reached with
  | @«variable» frame name cell bound =>
    have found := (h.frames.get frame).bindings name
    rw [bound] at found
    cases hb : (t.frames.get frame).bindings.get? name with
    | some other => rw [hb] at found; cases found with | some hab => exact ⟨other, hab⟩
    | none => rw [hb] at found; nomatch found
  | enclosing hmem => exact Dictionary.exists_right_of_mem h.objects _ hmem
  | @member cell inner id _ object hmem ih =>
    obtain ⟨other, paired⟩ := ih
    obtain ⟨_, hobject⟩ := (object ▸ h.store.read paired).exists_object
    exact Dictionary.exists_right_of_mem (h.store.members hobject).values _ hmem
  | @held cell inner id _ _ _ _ function stored hmem ih =>
    obtain ⟨other, paired⟩ := ih
    obtain ⟨_, hfunction⟩ := (function ▸ h.store.read paired).exists_function
    obtain ⟨f, g, hf, -, twins⟩ := h.store.functions hfunction
    cases stored.symm.trans hf
    cases twins with
    | native held => exact Dictionary.exists_right_of_mem held _ hmem

/-- **A state that has a peer is closed.** -/
theorem Peers.isClosed (h : s.Peers π t) : s.IsClosed where
  cells reached := by
    obtain ⟨other, paired⟩ := h.exists_cell reached
    exact (h.store.cells paired).1
  objects := by
    rintro id ⟨cell, reached, held⟩
    obtain ⟨other, paired⟩ := h.exists_cell reached
    obtain ⟨_, hobject⟩ := (held ▸ h.store.read paired).exists_object
    exact (h.store.objects hobject).1
  functions := by
    rintro id ⟨cell, reached, held⟩
    obtain ⟨other, paired⟩ := h.exists_cell reached
    obtain ⟨_, hfunction⟩ := (held ▸ h.store.read paired).exists_function
    obtain ⟨f, -, found, -⟩ := h.store.functions hfunction
    exact Store.lt_of_function? found

end State

/-! ## Runs from closed states -/

variable {α β : Type} {c : FrameId} {s t : State}

/-- A run that does the same from peers ends in a closed state if it starts in one. -/
theorem Run.Accords.closed {m : Run α} {m' : Run β} {R : Pairing → α → β → Prop}
    (h : m.Accords State.Peers s.own m' R) (closed : s.IsClosed) {a : α} (ends : m s = .done a t) :
    t.IsClosed ∧ ∃ π b u, t.Peers π u ∧ R π a b := by
  have same := h s.own s s (le_refl _) closed.peers
  rw [ends] at same
  generalize m' s = o at same
  cases same with
  | done _ peers result => exact ⟨peers.isClosed, _, _, _, peers, result⟩

namespace Evaluator

variable {bound : Nat}

/-- Code does from peers what it does. -/
theorem accords_peers (bound : Nat) : (ofBound bound).Accords State.Peers :=
  accords_ofBound State.Peers.accord bound

theorem isClosed_of_runBody (closed : s.IsClosed) {body : List Stmt}
    (ends : (ofBound bound).runBody c body s = .done () t) : t.IsClosed :=
  (((accords_peers bound).runBody body).closed closed ends).1

theorem isClosed_of_operandValue (closed : s.IsClosed) {e : Expr} {v : Value}
    (ends : (ofBound bound).operandValue c e s = .done v t) : t.IsClosed :=
  (((accords_peers bound).operandValue e).closed closed ends).1

/-- Cells passed for parameters are there when all of them are evaluated. -/
theorem isClosed_of_passedAll (closed : s.IsClosed) {pairs : List (Param × Arg)}
    {cells : List CellId} (ends : (ofBound bound).passedAll c pairs s = .done cells t) :
    t.IsClosed ∧ ∀ cell ∈ cells, cell.index < t.store.cells.size := by
  obtain ⟨closed', π, others, u, peers, same⟩ :=
    ((accords_peers bound).passedAll pairs).closed closed ends
  refine ⟨closed', fun cell hcell => ?_⟩
  obtain ⟨other, paired⟩ := Dictionary.exists_right_of_mem same cell hcell
  exact (peers.store.cells paired).1

end Evaluator

end PageScript
