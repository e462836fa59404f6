import PageScript.Proofs.Machine.Settling

/-!
# Proofs/Machine/Agreement — the same, but for the places of faults

Two outcomes *agree* if they are the same, but for the place of a fault.  Runs made of runs that agree
agree, and a run agrees with itself, put in its place.
-/

namespace PageScript

variable {α α' β β' : Type}

/-- The same outcome, but for the place of a fault. -/
inductive Outcome.Agrees : Outcome α → Outcome α → Prop
  | done {a : α} {s : State} : Agrees (.done a s) (.done a s)
  | failed {f g : Fault} {s : State} (h : f.cause = g.cause) : Agrees (.failed f s) (.failed g s)
  | exhausted : Agrees .exhausted .exhausted

namespace Outcome.Agrees

variable {o o' o'' : Outcome α}

theorem refl : ∀ o : Outcome α, o.Agrees o
  | .done _ _ => .done
  | .failed _ _ => .failed rfl
  | .exhausted => .exhausted

theorem of_eq (h : o = o') : o.Agrees o' := h ▸ refl o

theorem trans (h : o.Agrees o') (h' : o'.Agrees o'') : o.Agrees o'' := by
  cases h with
  | failed h =>
    cases h' with
    | failed h' => exact .failed (h.trans h')
  | _ => exact h'

end Outcome.Agrees

namespace Run

variable {m m' : Run α} {s : State}

theorem agrees_within (place : Span) : (within place m s).Agrees (m s) := by
  rw [within_eq_map]
  cases m s with
  | done => exact .done
  | failed => exact .failed rfl
  | exhausted => exact .exhausted

theorem agrees_bind {next : α → Run α'} (h : (m s).Agrees (m' s)) :
    ((m >>= next) s).Agrees ((m' >>= next) s) := by
  simp only [Bind.bind, Run.bind, through]
  generalize m s = o, m' s = o' at h
  cases h with
  | done => exact .refl _
  | failed h => exact .failed h
  | exhausted => exact .exhausted

theorem agrees_bind_right (m : Run α) {next next' : α → Run β}
    (h : ∀ a s, (next a s).Agrees (next' a s)) (s : State) :
    ((m >>= next) s).Agrees ((m >>= next') s) := by
  simp only [Bind.bind, Run.bind, through]
  cases m s with
  | done a t => exact h a t
  | failed => exact .refl _
  | exhausted => exact .exhausted

theorem bind_congr (m : Run α) {next next' : α → Run β} (h : ∀ a s, next a s = next' a s)
    (s : State) : (m >>= next) s = (m >>= next') s := by
  simp only [Bind.bind, Run.bind, through]
  cases m s with
  | done a t => exact h a t
  | _ => rfl

theorem bind_assoc (m : Run α) (f : α → Run β) (g : β → Run β') (s : State) :
    ((m >>= f) >>= g) s = (m >>= fun a => f a >>= g) s := by
  simp only [Bind.bind, Run.bind, through]
  cases m s <;> rfl

end Run

end PageScript
