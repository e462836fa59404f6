import PageScript.Machine.Frames

/-!
# Proofs/Machine/Framewise — frames compared one by one

Two stacks of frames correspond if they are equally high and each frame is related to the one at the
same place.  Pushing related frames, changing a frame on both sides and releasing frames keep that,
whatever the relation.  Frames are *peers* if they bind the same names, in whatever order, to cells
that are related; then every name leads to related cells.
-/

namespace PageScript

namespace Frames

theorem get_modify_of_size_le {fs : Frames} {id : FrameId} {change : Frame → Frame}
    (h : fs.size ≤ id.index) : (fs.modify id change).get id = fs.get id := by
  rw [get_of_size_le h, get_of_size_le (Nat.le_trans (Nat.le_of_eq size_modify) h)]

/-- As many frames, each related to its counterpart. -/
structure Pointwise (R : Frame → Frame → Prop) (fs gs : Frames) : Prop where
  size : fs.size = gs.size
  get : ∀ id, R (fs.get id) (gs.get id)

namespace Pointwise

variable {R : Frame → Frame → Prop} {fs gs : Frames} {id : FrameId} {f g : Frame}

/-- Where there is no frame, there is the same one on both sides. -/
theorem outside (h : fs.Pointwise R gs) : R default default := by
  have none : fs.get ⟨fs.size⟩ = default := get_of_size_le (Nat.le_refl _)
  have none' : gs.get ⟨fs.size⟩ = default := get_of_size_le (Nat.le_of_eq h.size.symm)
  have beyond := h.get ⟨fs.size⟩
  rwa [none, none'] at beyond

theorem modify (h : fs.Pointwise R gs) {change change' : Frame → Frame}
    (hchange : R (fs.get id) (gs.get id) → R (change (fs.get id)) (change' (gs.get id))) :
    (fs.modify id change).Pointwise R (gs.modify id change') where
  size := by rw [size_modify, size_modify, h.size]
  get other := by
    by_cases same : id = other
    · subst same
      by_cases live : id.index < fs.size
      · rw [get_modify_self live, get_modify_self (h.size ▸ live)]
        exact hchange (h.get id)
      · have beyond := Nat.le_of_not_lt live
        rw [get_modify_of_size_le beyond, get_modify_of_size_le (h.size ▸ beyond)]
        exact h.get id
    · rw [get_modify_of_ne same, get_modify_of_ne same]
      exact h.get other

theorem push (h : fs.Pointwise R gs) (hfg : R f g) : (fs.push f).2.Pointwise R (gs.push g).2 where
  size := size_push.trans ((congrArg (· + 1) h.size).trans size_push.symm)
  get other := by
    obtain live | heq | above := Nat.lt_trichotomy other.index fs.size
    · rw [get_push_of_lt live, get_push_of_lt (h.size ▸ live)]
      exact h.get other
    · obtain rfl : other = ⟨fs.size⟩ := congrArg FrameId.mk heq
      rw [get_push_self, h.size, get_push_self]
      exact hfg
    · rw [get_of_size_le (Nat.le_trans (Nat.le_of_eq size_push) above),
        get_of_size_le (Nat.le_trans (Nat.le_of_eq size_push) (h.size ▸ above))]
      exact h.outside

theorem pushChild (h : fs.Pointwise R gs) {parent : FrameId}
    (explicit : (fs.get parent).explicit = (gs.get parent).explicit)
    (fresh : ∀ on, R (.fresh (some parent) on) (.fresh (some parent) on)) :
    (fs.pushChild parent).2.Pointwise R (gs.pushChild parent).2 := by
  rw [Frames.pushChild, Frames.pushChild, ← explicit]
  exact h.push (fresh _)

theorem release (h : fs.Pointwise R gs) : (fs.release id).Pointwise R (gs.release id) where
  size := by rw [size_release, size_release, h.size]
  get other := by
    obtain below | above := Nat.lt_or_ge other.index id.index
    · rw [get_release_of_lt below, get_release_of_lt below]
      exact h.get other
    · have beyond {fs : Frames} : (fs.release id).size ≤ other.index :=
        Nat.le_trans (Nat.le_of_eq size_release) (Nat.le_trans (Nat.min_le_left _ _) above)
      rw [get_of_size_le beyond, get_of_size_le beyond]
      exact h.outside

end Pointwise

end Frames

/-! ## Peers -/

/-- The same names, bound to related cells, and the same of everything else. -/
structure Frame.Peers (r : CellId → CellId → Prop) (f g : Frame) : Prop where
  bindings : ∀ name, Option.Rel r (f.bindings.get? name) (g.bindings.get? name)
  parent : f.parent = g.parent
  explicit : f.explicit = g.explicit
  frozen : f.frozen = g.frozen
  procedure : f.procedure = g.procedure

namespace Frame.Peers

variable {r r' : CellId → CellId → Prop} {f g : Frame}

theorem refl (h : ∀ name a, f.bindings.get? name = some a → r a a) : f.Peers r f where
  bindings name := by
    cases found : f.bindings.get? name with
    | some a => exact .some (h name a found)
    | none => exact .none
  parent := rfl
  explicit := rfl
  frozen := rfl
  procedure := rfl

theorem mono (h : f.Peers r g) (hr : ∀ a b, r a b → r' a b) : f.Peers r' g :=
  { h with
    bindings := fun name => by
      have found := h.bindings name
      generalize f.bindings.get? name = a, g.bindings.get? name = b at found ⊢
      cases found with
      | some hab => exact .some (hr _ _ hab)
      | none => exact .none }

theorem isSome_eq (h : f.Peers r g) (name : String) :
    (f.bindings.get? name).isSome = (g.bindings.get? name).isSome := by
  have found := h.bindings name
  generalize f.bindings.get? name = a, g.bindings.get? name = b at found
  cases found <;> rfl

theorem bind (h : f.Peers r g) {a b : CellId} (hab : r a b) (name : Name) :
    (f.bind name a).Peers r (g.bind name b) :=
  { h with
    bindings := fun folded => by
      by_cases same : name.text = folded
      · subst same
        simp only [Frame.bind, Dictionary.get?_insert_self]
        exact .some hab
      · simp only [Frame.bind, Dictionary.get?_insert_of_ne _ same]
        exact h.bindings folded }

end Frame.Peers

namespace Frames.Pointwise

variable {r : CellId → CellId → Prop} {fs gs : Frames}

theorem lookupWithin (h : fs.Pointwise (Frame.Peers r) gs) (name : String) :
    ∀ (bound : Nat) (id : FrameId),
      Option.Rel r (fs.lookupWithin name bound id) (gs.lookupWithin name bound id)
  | 0, _ => .none
  | bound + 1, id => by
    have found := (h.get id).bindings name
    unfold Frames.lookupWithin
    rw [← (h.get id).parent]
    generalize (fs.get id).bindings.get? name = a, (gs.get id).bindings.get? name = b at found
    cases found with
    | some hab => exact .some hab
    | none =>
      cases (fs.get id).parent with
      | some parent => exact h.lookupWithin name bound parent
      | none => exact .none

/-- **From peers, every name leads to related cells.** -/
theorem lookup (h : fs.Pointwise (Frame.Peers r) gs) (id : FrameId) (name : String) :
    Option.Rel r (fs.lookup id name) (gs.lookup id name) := by
  rw [Frames.lookup, Frames.lookup, h.size]
  exact h.lookupWithin name gs.size id

end Frames.Pointwise

end PageScript
