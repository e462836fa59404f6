import Mathlib.Data.Rat.Floor
import PageScript.Proofs.Machine.Enclosing
import PageScript.Proofs.Number.Exact

/-!
# Proofs/Machine/Counting — how often a counting loop runs its body

A counting loop takes its bounds once, puts the first value into its variable, and makes one pass
after the other: the body runs, and then the step is added to what the variable holds (`Passes`).  If
the bounds are integers, if no value of the variable is beyond `2 ^ 53` in magnitude, and if the body
leaves the variable as it is, then all these sums are exact, and the number of passes is the one of
arithmetic (`Evaluator.passes_count`).
-/

namespace PageScript

open Run
open Evaluator (ofBound)

/-! ## The arithmetic of a loop -/

/-- A value is beyond the last one in the direction of the step. -/
def Beyond (step last value : ℤ) : Prop := if 0 ≤ step then last < value else value < last

/-- How many of the values from the first one on, a step apart, are not beyond the last one. -/
def passCount (first last step : ℤ) : ℕ := (⌊(last - first : ℚ) / step⌋ + 1).toNat

/-- Beyond the last value are the values behind those that are counted. -/
theorem beyond_iff {first last step : ℤ} (nonzero : step ≠ 0) (k : ℕ) :
    Beyond step last (first + k * step) ↔ passCount first last step ≤ k := by
  rw [passCount, Int.toNat_le, Int.add_one_le_iff, Int.floor_lt, Beyond, Int.cast_natCast]
  obtain negative | positive := lt_or_gt_of_ne nonzero
  · rw [if_neg (not_le.mpr negative), div_lt_iff_of_neg (by exact_mod_cast negative),
      lt_sub_iff_add_lt']
    exact_mod_cast Iff.rfl
  · rw [if_pos positive.le, div_lt_iff₀ (by exact_mod_cast positive), sub_lt_iff_lt_add']
    exact_mod_cast Iff.rfl

/-- A cell that may be written to holds an integer. -/
structure State.HoldsInteger (s : State) (cell : CellId) (value : ℤ) : Prop where
  made : cell.index < s.store.cells.size
  writable : s.store.isReadonly cell = false
  holds : ∃ w, s.store.read cell = .number w ∧ Number.value? w = some (value : ℚ)

theorem State.HoldsInteger.put {s : State} {cell : CellId} {value : ℤ} {w : Float}
    (made : cell.index < s.store.cells.size) (writable : s.store.isReadonly cell = false)
    (hw : Number.value? w = some (value : ℚ)) :
    (s.put cell (.number w)).HoldsInteger cell value where
  made := Nat.lt_of_lt_of_le made (s.store.grows_put writable _).cells
  writable := ((s.store.grows_put writable _).rule made).trans writable
  holds := ⟨w, congrArg Cell.value (Store.cell_put_self made _), hw⟩

namespace Evaluator

variable {bound : ℕ} {c : FrameId} {var : Name} {counter : CellId} {body : List Stmt}
  {k : ℕ} {s t u : State} {w y z : Float} {a m l n : ℤ}

/-- The test of a loop on exact values. -/
theorem beyond_iff_float (hw : Number.value? w = some (a : ℚ)) (hy : Number.value? y = some (l : ℚ))
    (hz : Number.value? z = some (n : ℚ)) :
    (if z ≥ 0 then w > y else w < y) ↔ Beyond n l a := by
  have direction : z ≥ 0 ↔ 0 ≤ n :=
    (Number.le_iff Number.value?_zero hz).trans (by exact_mod_cast Iff.rfl)
  rw [Beyond]
  by_cases up : 0 ≤ n
  · rw [if_pos (direction.mpr up), if_pos up]
    exact (Number.lt_iff hy hw).trans Int.cast_lt
  · rw [if_neg (mt direction.mp up), if_neg up]
    exact (Number.lt_iff hw hy).trans Int.cast_lt

/-! ## Passes -/

/-- A number of passes, made from `s` to `t`.  In each one the body runs and leaves the variable of
the loop as it is, which then gets the sum of its value and the step. -/
inductive Passes (ev : Evaluator) (c : FrameId) (counter : CellId) (body : List Stmt) (step : Float) :
    ℕ → State → State → Prop
  | zero {s : State} : Passes ev c counter body step 0 s s
  | succ {k : ℕ} {s t u : State} {w : Float}
    (earlier : Passes ev c counter body step k s t)
    (holds : t.store.read counter = .number w)
    (runs : ev.executeBody c body t = .done () u)
    (kept : u.store.read counter = t.store.read counter) :
    Passes ev c counter body step (k + 1) s (u.put counter (.number (w + step)))

/-- A body that leaves the variable of the loop as it is leaves an integer in it. -/
theorem holdsInteger_executeBody (before : s.HoldsInteger counter a)
    (runs : (ofBound bound).executeBody c body s = .done () t)
    (kept : t.store.read counter = s.store.read counter) : t.HoldsInteger counter a := by
  have later : s.Later c t := .of_obeys (fun _ _ hev => obeys_executeBody hev fun _ _ => trivial)
    ⟨bound, runs⟩
  exact ⟨Nat.lt_of_lt_of_le before.made later.store.cells,
    (later.store.rule before.made).trans before.writable, kept ▸ before.holds⟩

/-- As long as the values are exact, the variable goes up by the step in each pass. -/
theorem holdsInteger_passes (start : s.HoldsInteger counter m)
    (hz : Number.value? z = some (n : ℚ)) (exact : ∀ j ≤ k, (m + j * n).natAbs ≤ 2 ^ 53)
    (passes : (ofBound bound).Passes c counter body z k s t) :
    t.HoldsInteger counter (m + k * n) := by
  induction passes with
  | zero => simpa using start
  | @succ k s t u w earlier holds runs kept ih =>
    have before := ih start fun j le => exact j (Nat.le_succ_of_le le)
    obtain ⟨v, hv, value⟩ := before.holds
    cases holds.symm.trans hv
    have after := holdsInteger_executeBody before runs kept
    have sum : ((m + k * n : ℤ) + n : ℚ) = (m + (k + 1 : ℕ) * n : ℤ) := by
      push_cast
      ring
    exact .put after.made after.writable (Number.value?_add value hz sum (exact _ (Nat.le_refl _)))

/-! ## Loops -/

/-- The loop ends where its variable is beyond the last value. -/
theorem countPass_beyond {ev : Evaluator} (holds : s.store.read counter = .number w)
    (beyond : if z ≥ 0 then w > y else w < y) :
    ev.countPass c var counter y z body s = .done false s := by
  have current : (Run.read counter) s = .done (.number w) s := congrArg (Outcome.done · s) holds
  refine (bind_of_done current).trans ((bind_of_done rfl).trans ?_)
  rw [if_pos beyond]
  rfl

/-- Where the variable is not beyond the last value, the body runs, and another pass is due. -/
theorem countPass_due {ev : Evaluator} (holds : s.store.read counter = .number w)
    (due : ¬if z ≥ 0 then w > y else w < y) (runs : ev.executeBody c body s = .done () t)
    (kept : t.store.read counter = s.store.read counter)
    (writable : t.store.isReadonly counter = false) :
    ev.countPass c var counter y z body s = .done true (t.put counter (.number (w + z))) := by
  have current : (Run.read counter) s = .done (.number w) s := congrArg (Outcome.done · s) holds
  have again : (Run.read counter) t = .done (.number w) t :=
    congrArg (Outcome.done · t) (kept.trans holds)
  have written : Run.write counter (.number (w + z)) (.readonlyWrite var.text) t =
      .done () (t.put counter (.number (w + z))) := if_neg (Bool.eq_false_iff.mp writable)
  refine (bind_of_done current).trans ((bind_of_done rfl).trans ?_)
  rw [if_neg due]
  exact (bind_of_done runs).trans
    ((bind_of_done again).trans ((bind_of_done rfl).trans ((bind_of_done written).trans rfl)))

section

variable (start : s.HoldsInteger counter m) (hy : Number.value? y = some (l : ℚ))
  (hz : Number.value? z = some (n : ℚ)) (nonzero : n ≠ 0)

include start hy hz nonzero

/-- While no value is beyond the last one, each pass goes on with the next one. -/
theorem repeatWhile_passes {bound' : ℕ} (exact : ∀ j ≤ k, (m + j * n).natAbs ≤ 2 ^ 53)
    (le : k ≤ passCount m l n) (passes : (ofBound bound).Passes c counter body z k s t) :
    repeatWhile (bound' + k) ((ofBound bound).countPass c var counter y z body) s =
      repeatWhile bound' ((ofBound bound).countPass c var counter y z body) t := by
  induction passes generalizing bound' with
  | zero => rfl
  | @succ k s t u w earlier holds runs kept ih =>
    have exact' : ∀ j ≤ k, (m + j * n).natAbs ≤ 2 ^ 53 := fun j le => exact j (Nat.le_succ_of_le le)
    have before := holdsInteger_passes start hz exact' earlier
    obtain ⟨v, hv, value⟩ := before.holds
    cases holds.symm.trans hv
    have due : ¬if z ≥ 0 then w > y else w < y := by
      rw [beyond_iff_float value hy hz, beyond_iff nonzero]
      omega
    have after := holdsInteger_executeBody before runs kept
    have earlier : repeatWhile (bound' + 1 + k) _ s = _ := ih start exact' (by omega)
    rw [← Nat.add_assoc, Nat.add_right_comm, earlier]
    exact bind_of_done (countPass_due holds due runs kept after.writable)

end

/-- Passes are made as long as the body runs to its end and leaves the variable as it is. -/
theorem exists_passes (start : s.HoldsInteger counter m) (hz : Number.value? z = some (n : ℚ))
    (exact : ∀ j ≤ k, (m + j * n).natAbs ≤ 2 ^ 53)
    (runs : ∀ j < k, ∀ t, (ofBound bound).Passes c counter body z j s t →
      ∃ u, (ofBound bound).executeBody c body t = .done () u ∧
        u.store.read counter = t.store.read counter) :
    ∃ t, (ofBound bound).Passes c counter body z k s t := by
  induction k with
  | zero => exact ⟨s, .zero⟩
  | succ k ih =>
    have exact' : ∀ j ≤ k, (m + j * n).natAbs ≤ 2 ^ 53 := fun j le => exact j (Nat.le_succ_of_le le)
    obtain ⟨t, earlier⟩ := ih exact' fun j less => runs j (Nat.lt_succ_of_lt less)
    obtain ⟨w, holds, -⟩ := (holdsInteger_passes start hz exact' earlier).holds
    obtain ⟨u, ends, kept⟩ := runs k (Nat.lt_succ_self k) t earlier
    exact ⟨_, .succ earlier holds ends kept⟩

/-- **A counting loop makes the number of passes that arithmetic has.**  Its bounds are evaluated once
each, one after the other, and are integers `m`, `l` and `n`; then the variable is resolved, to a cell
that may be written to.  The body runs to its end in each pass and leaves the variable as it is,
whatever else it does.  If the values up to the first one beyond the last are exact, then the loop
runs the body `passCount m l n = max 0 (⌊(l - m) / n⌋ + 1)` times, with `m + k * n` in the variable in
pass `k`, and nothing else happens; behind the loop, the variable has the first of these values that is
beyond `l` in the direction of the step. -/
theorem passes_count {first last step : Expr} {s₁ s₂ s₃ s₄ : State} {x : Float}
    (hfirst : (ofBound bound).operandNumber c first s = .done x s₁)
    (hlast : (ofBound bound).operandNumber c last s₁ = .done y s₂)
    (hstep : (ofBound bound).operandNumber c step s₂ = .done z s₃)
    (hvar : variableCell c var s₃ = .done counter s₄)
    (made : counter.index < s₄.store.cells.size) (writable : s₄.store.isReadonly counter = false)
    (hx : Number.value? x = some (m : ℚ)) (hy : Number.value? y = some (l : ℚ))
    (hz : Number.value? z = some (n : ℚ)) (nonzero : n ≠ 0)
    (exact : ∀ k ≤ passCount m l n, (m + k * n).natAbs ≤ 2 ^ 53)
    (runs : ∀ k < passCount m l n, ∀ t,
      (ofBound bound).Passes c counter body z k (s₄.put counter (.number x)) t →
        ∃ u, (ofBound bound).executeBody c body t = .done () u ∧
          u.store.read counter = t.store.read counter)
    (enough : passCount m l n < bound) (place : Span) :
    ∃ ends,
      (ofBound (bound + 1)).execute c (.count place var first last step body) s = .done () ends ∧
      (ofBound bound).Passes c counter body z (passCount m l n) (s₄.put counter (.number x)) ends ∧
      (∀ k ≤ passCount m l n, ∀ t,
        (ofBound bound).Passes c counter body z k (s₄.put counter (.number x)) t →
          t.HoldsInteger counter (m + k * n)) ∧
      ∀ k : ℕ, Beyond n l (m + k * n) ↔ passCount m l n ≤ k := by
  have start : (s₄.put counter (.number x)).HoldsInteger counter m := .put made writable hx
  obtain ⟨ends, passes⟩ := exists_passes start hz exact runs
  have holds (k : ℕ) (le : k ≤ passCount m l n) (t : State)
      (passes : (ofBound bound).Passes c counter body z k _ t) : t.HoldsInteger counter (m + k * n) :=
    holdsInteger_passes start hz (fun j le' => exact j (le'.trans le)) passes
  obtain ⟨w, hw, value⟩ := (holds _ (Nat.le_refl _) _ passes).holds
  have beyond : if z ≥ 0 then w > y else w < y := by
    rw [beyond_iff_float value hy hz, beyond_iff nonzero]
  obtain ⟨rest, rfl⟩ : ∃ rest, bound = rest + 1 + passCount m l n :=
    ⟨bound - passCount m l n - 1, by omega⟩
  refine ⟨ends, ?_, passes, holds, beyond_iff nonzero⟩
  have written : Run.write counter (.number x) (.readonlyWrite var.text) s₄ =
      .done () (s₄.put counter (.number x)) := if_neg (Bool.eq_false_iff.mp writable)
  refine (bind_of_done hfirst).trans ((bind_of_done hlast).trans ((bind_of_done hstep).trans
    ((bind_of_done hvar).trans ((bind_of_done written).trans ?_))))
  refine (repeatWhile_passes start hy hz nonzero exact (Nat.le_refl _) passes).trans ?_
  exact (bind_of_done (countPass_beyond hw beyond)).trans rfl

/-- The loop from 2 to 5 in steps of 2 makes two passes, and ends with 6 in its variable. -/
theorem passes_count_assigning :
    let i := Name.ofString "i"
    let x := Name.ofString "x"
    let s := (State.start default 8).pushRoot.2
    let body : List Stmt := [.assign default (.var default x) (.var default i)]
    let two : Expr := .literal default (.number 2)
    let five : Expr := .literal default (.number 5)
    ∃ start ends, (ofBound 6).execute ⟨0⟩ (.count default i two five two body) s = .done () ends ∧
      (ofBound 5).Passes ⟨0⟩ ⟨3⟩ body 2 2 start ends ∧ ends.HoldsInteger ⟨3⟩ 6 := by
  intro i x s body two five
  have htwo : Number.value? 2 = some ((2 : ℤ) : ℚ) := by
    have two : Number.binary 2 = .finite false (2 ^ 52) (-51) := rfl
    rw [Number.value?, two, Number.Binary.value?]
    norm_num
  have hfive : Number.value? 5 = some ((5 : ℤ) : ℚ) := by
    have five : Number.binary 5 = .finite false (2 ^ 52 + 2 ^ 50) (-50) := rfl
    rw [Number.value?, five, Number.Binary.value?]
    norm_num
  have count : passCount 2 5 2 = 2 := by
    rw [passCount]
    norm_num
    rfl
  let s₁ := (s.newCell (.number 2) false).2
  let s₂ := (s₁.newCell (.number 5) false).2
  let s₃ := (s₂.newCell (.number 2) false).2
  let s₄ := (s₃.resolve ⟨0⟩ i true).2
  let start := s₄.put ⟨3⟩ (.number 2)
  have first : (ofBound 5).operandNumber ⟨0⟩ two s = .done 2 s₁ := rfl
  have last : (ofBound 5).operandNumber ⟨0⟩ five s₁ = .done 5 s₂ := rfl
  have step : (ofBound 5).operandNumber ⟨0⟩ two s₂ = .done 2 s₃ := rfl
  have resolved : variableCell ⟨0⟩ i s₃ = .done ⟨3⟩ s₄ := rfl
  have runs : ∀ k < passCount 2 5 2, ∀ t, (ofBound 5).Passes ⟨0⟩ ⟨3⟩ body 2 k start t →
      ∃ u, (ofBound 5).executeBody ⟨0⟩ body t = .done () u ∧
        u.store.read ⟨3⟩ = t.store.read ⟨3⟩ := by
    intro k less t passes
    rw [count] at less
    obtain rfl | rfl : k = 0 ∨ k = 1 := by omega
    · cases passes
      exact ⟨_, rfl, rfl⟩
    · obtain - | ⟨earlier, holds, runs, -⟩ := passes
      cases earlier
      cases runs
      cases holds
      exact ⟨_, rfl, (rfl : _ = Value.number (2 + 2)).trans rfl⟩
  obtain ⟨ends, loop, passes, holds, -⟩ := passes_count first last step resolved (by decide) rfl
    htwo hfive htwo (by decide) (by rw [count]; decide) runs (by rw [count]; decide) default
  rw [count] at passes holds
  exact ⟨start, ends, loop, passes, holds 2 (by decide) ends passes⟩

end Evaluator

end PageScript
