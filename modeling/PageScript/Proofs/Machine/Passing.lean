import PageScript.Proofs.Machine.Balance
import PageScript.Proofs.Machine.Closedness
import PageScript.Proofs.Machine.Constancy
import PageScript.Proofs.Machine.Locality

/-!
# Proofs/Machine/Passing — which cells a procedure gets for its parameters

A procedure gets the caller's own cell for an argument that is a place and is passed by reference,
and a cell of its own for any other one (`Evaluator.call_gets`).  The cell of its own is made right
behind the argument.  While the arguments behind it are evaluated, nothing refers to it: it lies
outside the sphere of the state that it was made in, so it keeps its value and no run gets hold of it
(`Evaluator.kept_of_passedAll`).  This takes a closed state: in others the number of a cell that is
still to be made could be in use.  Pages start in closed states and runs end in closed states, so all
states that calls are made in are closed.
-/

namespace PageScript

open Run

/-! ## The start of a body -/

namespace State

/-- The frame of a call is there, with the name of the procedure bound to the cell of the result. -/
def entered (t : State) (decl : Procedure) (home : FrameId) : State :=
  (((State.enter { t with objects := [] } home).2.mapFrames (·.setProcedure t.nextFrame decl.name)).define
    t.nextFrame .replacing decl.name .empty).2

/-- The state in which the body of a procedure starts that is called in the state `t`. -/
def calling (t : State) (decl : Procedure) (home : FrameId) (cells : List CellId) : State :=
  (decl.params.zip cells).foldl (fun s (p, cell) => s.bind t.nextFrame p.name cell) (t.entered decl home)

variable {s t : State} {decl : Procedure} {home : FrameId} {cells : List CellId} {f : FrameId}

theorem opens_entered (t : State) (decl : Procedure) (home : FrameId) :
    t.Opens home (t.entered decl home) :=
  ((t.opens_enter home).setProcedure decl.name).define rfl decl.name

theorem opens_calling (t : State) (decl : Procedure) (home : FrameId) (cells : List CellId) :
    t.Opens home (t.calling decl home cells) :=
  (opens_entered t decl home).bindAll _

theorem store_calling : (t.calling decl home cells).store = (t.store.newCell .empty false).2 :=
  State.store_bindAll _ _

/-- Binding other names leaves a name where it leads. -/
theorem Opens.get?_bindAll : ∀ {pairs : List (Param × CellId)} {s : State} {name : Name},
    t.Opens home s → (∀ pair ∈ pairs, pair.1.name ≠ name) →
      ((pairs.foldl (fun s (p, cell) => s.bind t.nextFrame p.name cell) s).frames.get
        t.nextFrame).bindings.get? name.text = (s.frames.get t.nextFrame).bindings.get? name.text
  | [], _, _, _, _ => rfl
  | (p, cell) :: rest, s, name, opens, other => by
    obtain ⟨apart, other⟩ := List.forall_mem_cons.mp other
    have bound : ((s.bind t.nextFrame p.name cell).frames.get t.nextFrame).bindings.get? name.text =
        (s.frames.get t.nextFrame).bindings.get? name.text := by
      refine (congrArg (·.bindings.get? name.text) (opens.get_modify (·.bind p.name cell))).trans ?_
      exact Dictionary.get?_insert_of_ne _ (fun same => apart (Name.ext same)) cell
    exact ((opens.bind p.name cell).get?_bindAll other).trans bound

/-- In the body, a parameter leads to what was passed for it, unless a later one has its name. -/
theorem get?_calling {before after : List (Param × CellId)} {param : Param} {cell : CellId}
    (split : decl.params.zip cells = before ++ (param, cell) :: after)
    (last : ∀ pair ∈ after, pair.1.name ≠ param.name) :
    ((t.calling decl home cells).frames.get t.nextFrame).bindings.get? param.name.text = some cell := by
  rw [calling, split, List.foldl_append, List.foldl_cons]
  have opens := (opens_entered t decl home).bindAll before
  refine ((opens.bind param.name cell).get?_bindAll last).trans ?_
  refine (congrArg (·.bindings.get? param.name.text) (opens.get_modify (·.bind param.name cell))).trans ?_
  exact Dictionary.get?_insert_self _ _ cell

end State

/-- A run behind another one gives a result only if the first one does. -/
theorem Run.done_of_bind_done {α β : Type} {m : Run α} {next : α → Run β} {s u : State} {b : β}
    (h : (m >>= next) s = .done b u) : ∃ a t, m s = .done a t ∧ next a t = .done b u := by
  obtain ⟨a, t, hr, h'⟩ | ⟨f, t, -, h'⟩ | h' := bind_cases m next s
  · exact ⟨a, t, hr, h'.symm.trans h⟩
  · cases h'.symm.trans h
  · cases h'.symm.trans h

theorem Run.bind_bind {α β γ : Type} (m : Run α) (f : α → Run β) (g : β → Run γ) (s : State) :
    (m >>= f >>= g) s = (m >>= fun a => f a >>= g) s := by
  simp only [Bind.bind, Run.bind, through]
  cases m s <;> rfl

theorem Outcome.map_map {α : Type} {onState onState' : State → State} (o : Outcome α) :
    (o.map onState id).map onState' id = o.map (onState' ∘ onState) id := by
  cases o <;> rfl

namespace Evaluator

variable {ev : Evaluator} {t : State} {decl : Procedure} {home : FrameId} {cells : List CellId}

/-- Where there is room for a call, it runs the body in a frame of its own, which is dropped behind
it; the result is the cell that the name of the procedure leads to. -/
theorem runProcedure_of_room (room : t.isFull = false) :
    ev.runProcedure decl home cells t =
      ((do
        ev.runBody t.nextFrame decl.body
        pure ⟨t.store.cells.size⟩ : Run CellId) (t.calling decl home cells)).map
          (fun u => { u.leave t.nextFrame with objects := t.objects }) id := by
  have opens := (t.opens_enter home).setProcedure decl.name
  have free := opens.declarationFault? decl.name
  rw [runProcedure, withoutObjects_eq_map, run_about, inCall_eq_map (s := { t with objects := [] }) _ room,
    Outcome.map_map]
  refine congrArg (Outcome.map _ id) ((bind_of_done rfl).trans ?_)
  refine (bind_of_done (declare_of_free free)).trans ((bind_of_done rfl).trans ?_)
  exact (bind_bind _ _ _ _).symm

/-! ## Evaluating arguments one after another -/

variable {bound : Nat} {c : FrameId} {s u v : State}

/-- Arguments are evaluated from left to right, each in the state that those before it leave. -/
theorem exists_of_passedAll_append : ∀ {before after : List (Param × Arg)} {s : State}
    {cells : List CellId}, ev.passedAll c (before ++ after) s = .done cells t →
      ∃ bs u as, ev.passedAll c before s = .done bs u ∧ ev.passedAll c after u = .done as t ∧
        cells = bs ++ as ∧ bs.length = before.length
  | [], _, s, cells, h => ⟨[], s, cells, rfl, h, rfl, rfl⟩
  | (param, arg) :: before, after, s, cells, h => by
    obtain ⟨first, v, hfirst, h⟩ := done_of_bind_done h
    obtain ⟨rest, w, hrest, h⟩ := done_of_bind_done h
    cases h
    obtain ⟨bs, u, as, hbefore, hafter, rfl, length⟩ := exists_of_passedAll_append hrest
    refine ⟨first :: bs, u, as, ?_, hafter, rfl, congrArg (· + 1) length⟩
    exact (bind_of_done hfirst).trans (bind_of_done hbefore)

/-- What is evaluated takes no cell away. -/
theorem cells_le_of_passedAll {pairs : List (Param × Arg)}
    (passed : (ofBound bound).passedAll c pairs s = .done cells t) :
    s.store.cells.size ≤ t.store.cells.size := by
  have advances := follows_passedAll (follows_ofBound Habit.advance bound) pairs (c := c) s
  exact (advances.ends (t := t) (by rw [passed]; rfl)).cells

theorem cells_le_of_operandValue {e : Expr} {value : Value}
    (evaluated : (ofBound bound).operandValue c e s = .done value t) :
    s.store.cells.size ≤ t.store.cells.size := by
  have advances := follows_operandValue (follows_ofBound Habit.advance bound) e (c := c) s
  exact (advances.ends (t := t) (by rw [evaluated]; rfl)).cells

end Evaluator

/-! ## Cells that nothing refers to -/

namespace State

variable {s t : State} {S : Sphere} {cell : CellId}

/-- In a state within a sphere, no cell outside it can be got hold of. -/
theorem Within.cell_of_reaches (h : s.Within S) (reached : s.Reaches cell) : S.cell cell := by
  induction reached with
  | «variable» bound => exact h.frames.bound _ _ _ bound
  | enclosing hmem => exact h.objects _ hmem
  | @member owner inner id _ object hmem ih =>
    have held : S.value (s.store.read owner) := h.store.values ih
    rw [object] at held
    exact h.store.members held hmem
  | @held owner inner id _ _ _ _ function stored hmem ih =>
    have leads : S.value (s.store.read owner) := h.store.values ih
    rw [function] at leads
    exact h.store.functions leads stored inner hmem

/-- In a closed state, making a cell gets nobody hold of anything. -/
theorem IsClosed.reaches_of_newCell (closed : s.IsClosed) {value : Value} {readonly : Bool}
    (reached : (s.newCell value readonly).2.Reaches cell) : s.Reaches cell := by
  induction reached with
  | «variable» bound => exact .variable bound
  | enclosing hmem => exact .enclosing hmem
  | @member owner inner id _ object hmem ih =>
    have kept := Store.cell_newCell_of_lt (closed.cells ih) value readonly
    exact .member ih ((congrArg Cell.value kept).symm.trans object) hmem
  | @held owner inner id _ _ _ _ function stored hmem ih =>
    have kept := Store.cell_newCell_of_lt (closed.cells ih) value readonly
    exact .held ih ((congrArg Cell.value kept).symm.trans function) stored hmem

end State

namespace Evaluator

variable {bound : Nat} {c : FrameId} {s t u : State} {cells : List CellId}

/-- A cell that cannot be got hold of stays as it is while arguments are evaluated, and none of
them leads to it. -/
theorem kept_of_passedAll {pairs : List (Param × Arg)} {cell : CellId}
    (live : cell.index < s.store.cells.size) (unreached : ¬s.Reaches cell)
    (passed : (ofBound bound).passedAll c pairs s = .done cells t) :
    t.store.cell cell = s.store.cell cell ∧ ¬t.Reaches cell ∧ cell ∉ cells := by
  have outside : ¬(s.sphere fun _ => True).cell cell :=
    not_or.mpr ⟨unreached, Nat.not_le_of_lt live⟩
  have start : s.Within (s.sphere fun _ => True) :=
    State.within_sphere fun _ _ stmt _ => stmt.every_of_forall fun _ => trivial
  have calls : (s.sphere fun _ => True).Calls := Sphere.calls _ (Nat.le_refl _)
  have holds := holds_passedAll (c := c) calls fun pair (_ : pair ∈ pairs) =>
    pair.2.value.confined calls
  obtain ⟨within, inside⟩ := (holds s start).done bound cells t passed
  exact ⟨within.store.outside outside, fun reached => outside (within.cell_of_reaches reached),
    fun h => outside (inside cell h)⟩

/-! ## The cells of the parameters -/

/-- The argument is handed over itself: it is a place, and neither it nor the parameter asks for a
copy. -/
def SharesPlace (param : Param) (arg : Arg) : Prop :=
  param.byRef = true ∧ arg.byValue = false ∧ arg.value.isPlace = true

/-- How the cell that a procedure gets for an argument comes about.  The call is made in the state
`s`, the argument is evaluated in the state `u`, the last one ends in the state `t`, and `others` are
the cells for the other arguments. -/
inductive Gets (ev : Evaluator) (c : FrameId) (s u t : State) (param : Param) (arg : Arg)
    (others : List CellId) (cell : CellId) : Prop
  | own {v : State} (shares : SharesPlace param arg)
      (denoted : ev.place c arg.value u = .done cell v)
  | copy {value : Value} {v : State} (copies : ¬SharesPlace param arg)
      (evaluated : ev.operandValue c arg.value u = .done value v)
      (new : s.store.cells.size ≤ cell.index) (live : cell.index < t.store.cells.size)
      (unreached : ¬t.Reaches cell) (alone : cell ∉ others)
      (holds : t.store.cell cell = ⟨value, false⟩)

variable {bound : Nat} {c : FrameId} {s t u : State} {cells : List CellId}

/-- The cell of one argument, behind others and before others. -/
theorem gets_of_passed {param : Param} {arg : Arg} {first : CellId} {v : State}
    {pairs : List (Param × Arg)} {before : List CellId} (closed : u.IsClosed)
    (older : s.store.cells.size ≤ u.store.cells.size)
    (earlier : ∀ cell ∈ before, cell.index < u.store.cells.size)
    (hfirst : (ofBound bound).passed c param arg u = .done first v)
    (hrest : (ofBound bound).passedAll c pairs v = .done cells t) :
    (ofBound bound).Gets c s u t param arg (before ++ cells) first := by
  by_cases shares : SharesPlace param arg
  · have place : ((param.byRef && !arg.byValue && arg.value.isPlace) = true) := by
      simp [shares.1, shares.2.1, shares.2.2]
    rw [passed, if_pos place] at hfirst
    exact .own shares hfirst
  · have copies : ¬(param.byRef && !arg.byValue && arg.value.isPlace) = true := by
      simpa [SharesPlace, and_assoc] using shares
    rw [passed, if_neg copies] at hfirst
    obtain ⟨value, w, hvalue, made⟩ := done_of_bind_done hfirst
    cases made
    have closed' := isClosed_of_operandValue closed hvalue
    have grown := cells_le_of_operandValue hvalue
    -- the new cell has the number of cells before it, so nothing leads to it
    have unreached : ¬(w.newCell value false).2.Reaches ⟨w.store.cells.size⟩ := fun reached =>
      Nat.lt_irrefl _ (closed'.cells (closed'.reaches_of_newCell reached))
    have live : w.store.cells.size < (w.newCell value false).2.store.cells.size :=
      Nat.lt_of_lt_of_eq (Nat.lt_succ_self _) (Array.size_push _).symm
    obtain ⟨kept, unreached', alone⟩ := kept_of_passedAll live unreached hrest
    refine .copy shares hvalue (Nat.le_trans older grown)
      (Nat.lt_of_lt_of_le live (cells_le_of_passedAll hrest)) unreached' ?_
      (kept.trans (Store.cell_newCell_self _ _ _))
    rw [List.mem_append, not_or]
    exact ⟨fun h => Nat.lt_irrefl _ (Nat.lt_of_lt_of_le (earlier _ h) grown), alone⟩

/-- **A procedure gets the cells that its arguments denote, and new ones.**  Once the arguments are
evaluated, a call is either refused or the body runs in a frame of its own, with nothing but the cell
of the result made in between.  Each argument is evaluated behind those before it, with the frames and
the `with` objects of the caller.  Its parameter leads to the cell for it as long as the body runs,
unless a later parameter has the same name.  A parameter that gets a copy cannot be used to write to a
cell that was there before the call. -/
theorem call_gets (closed : s.IsClosed) (decl : Procedure) (home : FrameId) (args : List Arg)
    (fits : args.length = decl.params.length)
    (passed : (ofBound bound).passedAll c (decl.params.zip args) s = .done cells t) :
    let start := t.calling decl home cells
    let body := (ofBound bound).runBody t.nextFrame decl.body
    (ofBound bound).call c (.script decl home) args s =
        (if t.isFull = true then .failed (.of (.stackOverflow t.limit)) t
        else ((do body; pure ⟨t.store.cells.size⟩ : Run CellId) start).map
          (fun u => { u.leave t.nextFrame with objects := t.objects }) id) ∧
      s.Level t ∧ start.store = (t.store.newCell .empty false).2 ∧
      ∀ before param arg after, decl.params.zip args = before ++ (param, arg) :: after →
        ∃ bs cell as u, cells = bs ++ cell :: as ∧ bs.length = before.length ∧
          (ofBound bound).passedAll c before s = .done bs u ∧ s.Level u ∧
          (ofBound bound).Gets c s u t param arg (bs ++ as) cell ∧
          ((∀ pair ∈ after, pair.1.name ≠ param.name) → ∀ moment, body.visits start moment →
            (moment.state.frames.get t.nextFrame).bindings.get? param.name.text = some cell) ∧
          (¬SharesPlace param arg → ∀ (w : State) (value : Value) (id : CellId),
            id.index < s.store.cells.size → (w.put cell value).store.cell id = w.store.cell id) := by
  intro start body
  have balance : (ofBound bound).Keeps Discipline.balance := keeps_ofBound _ bound
  have locality : (ofBound bound).Keeps Discipline.locality := keeps_ofBound _ bound
  refine ⟨?_, (keeps_passedAll balance _ s).done cells t passed, State.store_calling, ?_⟩
  · rw [call_of_passedAll fits passed]
    split
    · rename_i full
      exact runProcedure_of_isFull full
    · rename_i room
      exact runProcedure_of_room (Bool.eq_false_iff.mpr room)
  intro before param arg after split
  rw [split] at passed
  obtain ⟨bs, u, rest, hbefore, hrest, rfl, length⟩ := exists_of_passedAll_append passed
  obtain ⟨cell, v, hcell, hrest⟩ := done_of_bind_done hrest
  obtain ⟨as, w, hafter, hrest⟩ := done_of_bind_done hrest
  cases hrest
  obtain ⟨closed', earlier⟩ := isClosed_of_passedAll closed hbefore
  have gets := gets_of_passed closed' (cells_le_of_passedAll hbefore) earlier hcell hafter
  refine ⟨bs, cell, as, u, rfl, length, hbefore, (keeps_passedAll balance _ s).done bs u hbefore,
    gets, ?_, ?_⟩
  · intro last moment hv
    have params : decl.params = before.map Prod.fst ++ param :: after.map Prod.fst := by
      have first := List.map_fst_zip (Nat.le_of_eq fits.symm)
      rw [split, List.map_append, List.map_cons] at first
      exact first.symm
    have cells : decl.params.zip (bs ++ cell :: as) =
        (before.map Prod.fst).zip bs ++ (param, cell) :: (after.map Prod.fst).zip as := by
      rw [params, List.zip_append (by rw [List.length_map, length]), List.zip_cons_cons]
    have leads : (start.frames.get t.nextFrame).bindings.get? param.name.text = some cell := by
      refine State.get?_calling cells fun pair hpair => ?_
      obtain ⟨other, hother, same⟩ := List.mem_map.mp (List.of_mem_zip hpair).1
      exact same ▸ last other hother
    have touches : start.frames.Touches t.nextFrame moment.state.frames :=
      (keeps_runBody locality decl.body start).during moment hv
    exact (touches.own (State.opens_calling t decl home _).live).bindings _ _ leads
  · intro copies w value id old
    cases gets with
    | own shares _ => exact absurd shares copies
    | copy _ _ new =>
      refine Store.cell_put_of_ne (fun same => ?_) value
      exact Nat.not_lt_of_le new (same ▸ old)

/-- A procedure is called with one variable for two parameters, of which it gets the first one by
reference and the second one by value. -/
theorem call_gets_variable :
    let arg : Arg := .mk (.var default default) false
    let byRef : Param := ⟨Name.ofString "a", true⟩
    let byValue : Param := ⟨Name.ofString "b", false⟩
    let decl : Procedure := .mk default .sub [byRef, byValue] [] .isPublic
    let s := ((State.start default 8).pushRoot.2.define ⟨0⟩ .unique default .empty).2
    let t := (s.newCell .empty false).2
    s.IsClosed ∧ [arg, arg].length = decl.params.length ∧
      (ofBound 1).passedAll ⟨0⟩ (decl.params.zip [arg, arg]) s = .done [⟨0⟩, ⟨1⟩] t ∧
      (∃ u, s.Level u ∧ (ofBound 1).Gets ⟨0⟩ s u t byRef arg [⟨1⟩] ⟨0⟩) ∧
      ∃ u, s.Level u ∧ (ofBound 1).Gets ⟨0⟩ s u t byValue arg [⟨0⟩] ⟨1⟩ := by
  intro arg byRef byValue decl s t
  have root : (State.start default 8).pushRoot.2.IsClosed := by
    refine State.isClosed_of_unbound (fun id name => ?_) rfl
    rcases id with ⟨_ | _⟩ <;> rfl
  have declared : (ofBound 1).runBody ⟨0⟩ [.dim default default none .isPublic]
      (State.start default 8).pushRoot.2 = .done () s := rfl
  have closed : s.IsClosed := isClosed_of_runBody root declared
  have passed : (ofBound 1).passedAll ⟨0⟩ (decl.params.zip [arg, arg]) s = .done [⟨0⟩, ⟨1⟩] t := rfl
  obtain ⟨-, -, -, each⟩ := call_gets closed decl ⟨0⟩ [arg, arg] rfl passed
  refine ⟨closed, rfl, passed, ?_, ?_⟩
  · obtain ⟨bs, cell, as, u, cells, length, -, level, gets, -⟩ := each [] byRef arg [(byValue, arg)] rfl
    obtain rfl := List.length_eq_zero_iff.mp length
    cases cells
    exact ⟨u, level, gets⟩
  · obtain ⟨bs, cell, as, u, cells, length, -, level, gets, -⟩ := each [(byRef, arg)] byValue arg [] rfl
    obtain ⟨b, rfl⟩ := List.length_eq_one_iff.mp length
    cases cells
    exact ⟨u, level, gets⟩

end Evaluator

end PageScript
