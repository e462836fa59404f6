import Mathlib.Data.List.Forall2
import Mathlib.Order.Defs.PartialOrder
import PageScript.Proofs.Machine.Confinement
import PageScript.Proofs.Machine.Contents

/-!
# Proofs/Machine/Pairing — stores in which the same has happened

Two runs of a program may make their cells, objects and functions at different places.  A `Pairing`
says which of one run correspond to which of the other; two stores are *twins* under a pairing if
corresponding things hold corresponding things.  Whatever one step makes in both stores becomes a
new pair, and what only one of them makes is no matter.
-/

namespace PageScript

/-! ## Pairings -/

/-- Which cells, objects and functions of one store correspond to which of another. -/
structure Pairing where
  cell : CellId → CellId → Prop
  object : ObjectId → ObjectId → Prop
  function : FunctionId → FunctionId → Prop

/-- A pairing has all pairs of another. -/
structure Pairing.Le (π ρ : Pairing) : Prop where
  cell : ∀ {a b}, π.cell a b → ρ.cell a b
  object : ∀ {a b}, π.object a b → ρ.object a b
  function : ∀ {a b}, π.function a b → ρ.function a b

instance : Preorder Pairing where
  le := Pairing.Le
  le_refl _ := ⟨fun h => h, fun h => h, fun h => h⟩
  le_trans _ _ _ h h' :=
    ⟨fun hab => h'.cell (h.cell hab), fun hab => h'.object (h.object hab),
      fun hab => h'.function (h.function hab)⟩

section

variable {α β : Type} {r : α → β → Prop} {a x : α} {b y : β}

/-- A relation with one more pair. -/
def WithPair (r : α → β → Prop) (a : α) (b : β) (x : α) (y : β) : Prop := r x y ∨ x = a ∧ y = b

/-- A pair of something new on either side keeps a relation one-to-one. -/
theorem biUnique_withPair (h : Relator.BiUnique r) (ha : ∀ y, ¬r a y) (hb : ∀ x, ¬r x b) :
    Relator.BiUnique (WithPair r a b) := by
  constructor
  · rintro x x' y (hx | ⟨rfl, rfl⟩) (hx' | ⟨rfl, hy⟩)
    · exact h.1 hx hx'
    · exact absurd (hy ▸ hx) (hb x)
    · exact absurd hx' (hb x')
    · rfl
  · rintro x y y' (hy | ⟨rfl, rfl⟩) (hy' | ⟨hx, rfl⟩)
    · exact h.2 hy hy'
    · exact absurd (hx ▸ hy) (ha y)
    · exact absurd hy' (ha y')
    · rfl

theorem forall₂_getElem? {xs : List α} {ys : List β} (h : List.Forall₂ r xs ys) (i : Nat) :
    Option.Rel r xs[i]? ys[i]? := by
  induction h generalizing i with
  | nil => exact .none
  | cons here _ ih =>
    cases i with
    | zero => exact .some here
    | succ i => exact ih i

theorem forall₂_tail {xs : List α} {ys : List β} (h : List.Forall₂ r xs ys) :
    List.Forall₂ r xs.tail ys.tail := by
  cases h with
  | nil => exact .nil
  | cons _ rest => exact rest

/-- What is new on one side differs from what has a partner. -/
theorem eq_iff_eq_of_biUnique (h : Relator.BiUnique r) {x' : α} {y' : β} (hxy : r x y)
    (hxy' : r x' y') : x = x' ↔ y = y' :=
  ⟨fun same => h.2 hxy (same ▸ hxy'), fun same => h.1 hxy (same ▸ hxy')⟩

end

namespace Pairing

variable (π : Pairing)

/-- The pairing with one more pair of cells. -/
def addCell (a b : CellId) : Pairing := { π with cell := WithPair π.cell a b }

/-- The pairing with one more pair of objects. -/
def addObject (a b : ObjectId) : Pairing := { π with object := WithPair π.object a b }

/-- The pairing with one more pair of functions. -/
def addFunction (a b : FunctionId) : Pairing := { π with function := WithPair π.function a b }

variable {π}

theorem le_addCell {a b : CellId} : π ≤ π.addCell a b := ⟨.inl, fun h => h, fun h => h⟩

theorem le_addObject {a b : ObjectId} : π ≤ π.addObject a b := ⟨fun h => h, .inl, fun h => h⟩

theorem le_addFunction {a b : FunctionId} : π ≤ π.addFunction a b :=
  ⟨fun h => h, fun h => h, .inl⟩

theorem addCell_self {a b : CellId} : (π.addCell a b).cell a b := .inr ⟨rfl, rfl⟩

theorem addObject_self {a b : ObjectId} : (π.addObject a b).object a b := .inr ⟨rfl, rfl⟩

theorem addFunction_self {a b : FunctionId} : (π.addFunction a b).function a b := .inr ⟨rfl, rfl⟩

end Pairing

variable {π ρ : Pairing}

/-! ## Values -/

namespace Value

/-- The value refers to nothing. -/
def isPlain : Value → Bool
  | object _ | function _ => false
  | _ => true

/-- The same plain value, or corresponding references. -/
inductive Twins (π : Pairing) : Value → Value → Prop
  | plain {v : Value} (h : v.isPlain = true) : Twins π v v
  | object {a b : ObjectId} (h : π.object a b) : Twins π (.object a) (.object b)
  | function {a b : FunctionId} (h : π.function a b) : Twins π (.function a) (.function b)

theorem Twins.mono {v w : Value} (h : v.Twins π w) (hle : π ≤ ρ) : v.Twins ρ w := by
  cases h with
  | plain h => exact .plain h
  | object h => exact .object (hle.object h)
  | function h => exact .function (hle.function h)

theorem twins_ofLiteral (l : Literal) : (ofLiteral l).Twins π (ofLiteral l) := by
  cases l <;> exact .plain rfl

namespace Twins

variable {v w v' w' : Value}

theorem kind_eq (h : v.Twins π w) : v.kind = w.kind := by
  cases h <;> rfl

theorem toNumber_eq (h : v.Twins π w) : v.toNumber = w.toNumber := by
  cases h <;> rfl

theorem toText_eq (h : v.Twins π w) : v.toText = w.toText := by
  cases h <;> rfl

theorem sight_eq (h : v.Twins π w) : v.sight = w.sight := by
  cases h <;> rfl

theorem isTrue_eq (h : v.Twins π w) : v.isTrue = w.isTrue := by
  rw [isTrue, isTrue, h.toNumber_eq]

theorem toInteger_eq (h : v.Twins π w) : v.toInteger = w.toInteger := by
  rw [toInteger, toInteger, h.toNumber_eq]

theorem isReference_eq (h : v.Twins π w) : v.isReference = w.isReference := by
  cases h <;> rfl

theorem order_eq (h : v.Twins π w) (h' : v'.Twins π w') : v.order v' = w.order w' := by
  cases h with
  | plain hv =>
    cases h' with
    | plain => rfl
    | _ => cases v <;> rfl
  | _ => rw [order, order, h'.toNumber_eq] <;> first | rfl | nofun

theorem areEqual_eq (h : v.Twins π w) (h' : v'.Twins π w') : v.areEqual v' = w.areEqual w' := by
  rw [areEqual, areEqual, h.order_eq h']

theorem isSame_eq (h : v.Twins π w) (h' : v'.Twins π w')
    (objects : Relator.BiUnique π.object) (functions : Relator.BiUnique π.function) :
    v.isSame v' = w.isSame w' := by
  cases h with
  | plain hv =>
    cases h' with
    | plain => rfl
    | _ => cases v <;> first | rfl | nomatch hv
  | object h =>
    cases h' with
    | plain hv' => cases v' <;> first | rfl | nomatch hv'
    | object h' => exact decide_eq_decide.mpr (eq_iff_eq_of_biUnique objects h h')
    | function => rfl
  | function h =>
    cases h' with
    | plain hv' => cases v' <;> first | rfl | nomatch hv'
    | object => rfl
    | function h' => exact decide_eq_decide.mpr (eq_iff_eq_of_biUnique functions h h')

theorem applyBinary_eq (op : BinaryOp) (h : v.Twins π w) (h' : v'.Twins π w')
    (objects : Relator.BiUnique π.object) (functions : Relator.BiUnique π.function) :
    applyBinary op v v' = applyBinary op w w' := by
  have numeric (f : Float → Float → Except Fault.Cause Float) : numeric f v v' = numeric f w w' := by
    rw [Value.numeric, Value.numeric, h.toNumber_eq, h'.toNumber_eq]
  have comparison (f : Option Ordering → Bool) : comparison f v v' = comparison f w w' := by
    rw [Value.comparison, Value.comparison, h.order_eq h']
  have bitwise (f : Int64 → Int64 → Int64) : bitwise f v v' = bitwise f w w' := by
    rw [Value.bitwise, Value.bitwise, h.toInteger_eq, h'.toInteger_eq]
    cases h <;> cases h' <;> rfl
  cases op with
  | add =>
    cases h with
    | plain => cases h' <;> cases v <;> rfl
    | _ => exact numeric _
  | concat => rw [applyBinary, applyBinary, h.toText_eq, h'.toText_eq]
  | is =>
    rw [applyBinary, applyBinary, h.isReference_eq, h'.isReference_eq,
      h.isSame_eq h' objects functions]
  | and => exact bitwise _
  | or => exact bitwise _
  | xor => exact bitwise _
  | sub => exact numeric _
  | mul => exact numeric _
  | div => exact numeric _
  | intDiv => exact numeric _
  | pow => exact numeric _
  | mod => exact numeric _
  | _ => exact comparison _

theorem applyUnary_eq (op : UnaryOp) (h : v.Twins π w) : applyUnary op v = applyUnary op w := by
  cases h <;> cases op <;> rfl

end Twins

/-- What holds of the plain values holds of the values of a sphere without references. -/
theorem isPlain_of_computes {r : Except Fault.Cause Value}
    (h : ∀ S : Sphere, Computes S.value r) {v : Value} (hv : r = .ok v) : v.isPlain = true := by
  have plain := h ⟨fun _ => True, fun _ => True, fun _ => False, fun _ => False, 0, 0, default⟩
  rw [hv] at plain
  cases v <;> first | rfl | exact plain.elim

end Value

/-! ## Dictionaries -/

namespace Dictionary

variable {α β : Type} {r r' : α → β → Prop} {d : Dictionary α} {e : Dictionary β}

/-- The same names, in the same order, with corresponding entries. -/
def Twins (r : α → β → Prop) (d : Dictionary α) (e : Dictionary β) : Prop :=
  List.Forall₂ (fun x y => x.1 = y.1 ∧ r x.2 y.2) d.entries e.entries

theorem twins_empty : (empty : Dictionary α).Twins r (empty : Dictionary β) := .nil

theorem Twins.mono (h : d.Twins r e) (hr : ∀ a b, r a b → r' a b) : d.Twins r' e :=
  List.Forall₂.imp (fun _ _ hxy => ⟨hxy.1, hr _ _ hxy.2⟩) h

theorem Twins.values (h : d.Twins r e) : List.Forall₂ r d.values e.values := by
  rw [← entries_map_snd, ← entries_map_snd, List.forall₂_map_left_iff, List.forall₂_map_right_iff]
  exact List.Forall₂.imp (fun _ _ hxy => hxy.2) h

theorem Twins.names (h : d.Twins r e) : d.names = e.names := by
  rw [← entries_map_fst, ← entries_map_fst]
  exact List.forall₂_eq_eq_eq ▸ (List.forall₂_map_left_iff.mpr (List.forall₂_map_right_iff.mpr
    (List.Forall₂.imp (fun _ _ hxy => hxy.1) h)))

theorem rel_find? (folded : String) :
    ∀ {xs : List (Name × α)} {ys : List (Name × β)},
      List.Forall₂ (fun x y => x.1 = y.1 ∧ r x.2 y.2) xs ys →
        Option.Rel r ((xs.find? fun (key, _) => key.text == folded).map Prod.snd)
          ((ys.find? fun (key, _) => key.text == folded).map Prod.snd)
  | [], [], .nil => .none
  | (key, x) :: xs, (_, y) :: ys, .cons ⟨rfl, hxy⟩ hrest => by
    by_cases same : (key.text == folded) = true
    · simp only [List.find?_cons, same]
      exact .some hxy
    · simp only [List.find?_cons, Bool.eq_false_iff.mpr same]
      exact rel_find? folded hrest

theorem Twins.get? (h : d.Twins r e) (folded : String) :
    Option.Rel r (d.get? folded) (e.get? folded) := by
  rw [get?_eq_find?, get?_eq_find?]
  exact rel_find? folded h

theorem forall₂_putIn {name : Name} {a : α} {b : β} (hab : r a b) {xs : List (Name × α)}
    {ys : List (Name × β)} (h : List.Forall₂ (fun x y => x.1 = y.1 ∧ r x.2 y.2) xs ys) :
    List.Forall₂ (fun x y => x.1 = y.1 ∧ r x.2 y.2) (putIn name a xs) (putIn name b ys) := by
  induction h with
  | nil => exact .cons ⟨rfl, hab⟩ .nil
  | @cons x y _ _ hxy hrest ih =>
    obtain ⟨key, x⟩ := x
    obtain ⟨key', y⟩ := y
    obtain ⟨rfl, hxy⟩ := hxy
    unfold putIn
    split
    · exact .cons ⟨rfl, hab⟩ hrest
    · exact .cons ⟨rfl, hxy⟩ ih

theorem Twins.insert (h : d.Twins r e) (name : Name) {a : α} {b : β} (hab : r a b) :
    (d.insert name a).Twins r (e.insert name b) := by
  rw [Twins, entries_insert, entries_insert]
  exact forall₂_putIn hab h

end Dictionary

/-! ## Stores -/

/-- The same rule on writes and corresponding values. -/
structure Cell.Twins (π : Pairing) (c d : Cell) : Prop where
  readonly : c.readonly = d.readonly
  value : c.value.Twins π d.value

/-- The same procedure, or the same native function with corresponding cells. -/
inductive Callable.Twins (π : Pairing) : Callable → Callable → Prop
  | native {name : Name} {service : Service} {held held' : List CellId}
      (h : List.Forall₂ π.cell held held') :
      Twins π (.native name service held) (.native name service held')
  | script {decl : Procedure} {home : FrameId} : Twins π (.script decl home) (.script decl home)

theorem Callable.Twins.mono {f g : Callable} (h : f.Twins π g) (hle : π ≤ ρ) : f.Twins ρ g := by
  cases h with
  | native h => exact .native (h.imp fun _ _ => hle.cell)
  | script => exact .script

theorem Callable.Twins.name_eq {f g : Callable} (h : f.Twins π g) : f.name = g.name := by
  cases h <;> rfl

/-- Corresponding cells, objects and functions hold the same. -/
structure Store.Twins (π : Pairing) (s t : Store) : Prop where
  cells : ∀ {a b}, π.cell a b →
    a.index < s.cells.size ∧ b.index < t.cells.size ∧ (s.cell a).Twins π (t.cell b)
  objects : ∀ {a b}, π.object a b →
    a.index < s.objects.size ∧ b.index < t.objects.size ∧
      (s.members a).Twins π.cell (t.members b)
  functions : ∀ {a b}, π.function a b →
    ∃ f g, s.function? a = some f ∧ t.function? b = some g ∧ f.Twins π g
  oneCell : Relator.BiUnique π.cell
  oneObject : Relator.BiUnique π.object
  oneFunction : Relator.BiUnique π.function

theorem Cell.Twins.mono {c d : Cell} (h : c.Twins π d) (hle : π ≤ ρ) : c.Twins ρ d :=
  ⟨h.readonly, h.value.mono hle⟩

namespace Store.Twins

variable {s t : Store} {v w : Value} {a b : CellId}

theorem read (h : s.Twins π t) (hab : π.cell a b) : (s.read a).Twins π (t.read b) :=
  (h.cells hab).2.2.value

theorem members (h : s.Twins π t) {a b : ObjectId} (hab : π.object a b) :
    (s.members a).Twins π.cell (t.members b) :=
  (h.objects hab).2.2

/-- A cell that only one store gets is no matter. -/
theorem newCell_left (h : s.Twins π t) (v : Value) (readonly : Bool) :
    (s.newCell v readonly).2.Twins π t where
  cells hab := by
    obtain ⟨ha, hb, hcell⟩ := h.cells hab
    rw [cell_newCell_of_lt ha]
    exact ⟨Nat.lt_of_lt_of_eq (Nat.lt_succ_of_lt ha) (Array.size_push _).symm, hb, hcell⟩
  objects := h.objects
  functions := h.functions
  oneCell := h.oneCell
  oneObject := h.oneObject
  oneFunction := h.oneFunction

theorem newCell_right (h : s.Twins π t) (v : Value) (readonly : Bool) :
    s.Twins π (t.newCell v readonly).2 where
  cells hab := by
    obtain ⟨ha, hb, hcell⟩ := h.cells hab
    rw [cell_newCell_of_lt hb]
    exact ⟨ha, Nat.lt_of_lt_of_eq (Nat.lt_succ_of_lt hb) (Array.size_push _).symm, hcell⟩
  objects := h.objects
  functions := h.functions
  oneCell := h.oneCell
  oneObject := h.oneObject
  oneFunction := h.oneFunction

theorem newCell (h : s.Twins π t) (hv : v.Twins π w) (readonly : Bool) :
    (s.newCell v readonly).2.Twins
      (π.addCell (s.newCell v readonly).1 (t.newCell w readonly).1) (t.newCell w readonly).2 where
  cells := by
    rintro a b (hab | ⟨rfl, rfl⟩)
    · obtain ⟨ha, hb, hcell⟩ := ((h.newCell_left v readonly).newCell_right w readonly).cells hab
      exact ⟨ha, hb, hcell.mono Pairing.le_addCell⟩
    · refine ⟨?_, ?_, ?_⟩
      · exact Nat.lt_of_lt_of_eq (Nat.lt_succ_self _) (Array.size_push _).symm
      · exact Nat.lt_of_lt_of_eq (Nat.lt_succ_self _) (Array.size_push _).symm
      · have hs := s.cell_newCell_self v readonly
        have ht := t.cell_newCell_self w readonly
        refine ⟨(congrArg Cell.readonly hs).trans (congrArg Cell.readonly ht).symm, ?_⟩
        exact (congrArg Cell.value hs).symm ▸ (congrArg Cell.value ht).symm ▸
          hv.mono Pairing.le_addCell
  objects hab := by
    obtain ⟨ha, hb, hmembers⟩ := h.objects hab
    exact ⟨ha, hb, hmembers.mono fun _ _ => .inl⟩
  functions hab := by
    obtain ⟨f, g, hf, hg, hfg⟩ := h.functions hab
    exact ⟨f, g, hf, hg, hfg.mono Pairing.le_addCell⟩
  oneCell := by
    refine biUnique_withPair h.oneCell (fun b hab => ?_) fun a hab => ?_
    · exact Nat.lt_irrefl _ (h.cells hab).1
    · exact Nat.lt_irrefl _ (h.cells hab).2.1
  oneObject := h.oneObject
  oneFunction := h.oneFunction

theorem put (h : s.Twins π t) (hab : π.cell a b) (hv : v.Twins π w) :
    (s.put a v).Twins π (t.put b w) where
  cells := by
    intro a' b' hab'
    obtain ⟨ha, hb, -⟩ := h.cells hab
    obtain ⟨ha', hb', hcell⟩ := h.cells hab'
    refine ⟨Nat.lt_of_lt_of_eq ha' Array.size_modify.symm,
      Nat.lt_of_lt_of_eq hb' Array.size_modify.symm, ?_⟩
    by_cases same : a' = a
    · obtain rfl := (eq_iff_eq_of_biUnique h.oneCell hab' hab).mp same
      subst same
      rw [cell_put_self ha, cell_put_self hb]
      exact ⟨hcell.readonly, hv⟩
    · have other : b' ≠ b := fun same' => same ((eq_iff_eq_of_biUnique h.oneCell hab' hab).mpr same')
      rw [cell_put_of_ne same, cell_put_of_ne other]
      exact hcell
  objects := h.objects
  functions := h.functions
  oneCell := h.oneCell
  oneObject := h.oneObject
  oneFunction := h.oneFunction

theorem newObject (h : s.Twins π t) :
    s.newObject.2.Twins (π.addObject s.newObject.1 t.newObject.1) t.newObject.2 where
  cells hab := by
    obtain ⟨ha, hb, hcell⟩ := h.cells hab
    exact ⟨ha, hb, hcell.mono Pairing.le_addObject⟩
  objects := by
    rintro a b (hab | ⟨rfl, rfl⟩)
    · obtain ⟨ha, hb, hmembers⟩ := h.objects hab
      rw [members_newObject_of_lt ha, members_newObject_of_lt hb]
      exact ⟨Nat.lt_of_lt_of_eq (Nat.lt_succ_of_lt ha) (Array.size_push _).symm,
        Nat.lt_of_lt_of_eq (Nat.lt_succ_of_lt hb) (Array.size_push _).symm, hmembers⟩
    · refine ⟨?_, ?_, ?_⟩
      · exact Nat.lt_of_lt_of_eq (Nat.lt_succ_self _) (Array.size_push _).symm
      · exact Nat.lt_of_lt_of_eq (Nat.lt_succ_self _) (Array.size_push _).symm
      · have hs := s.members_newObject_self
        have ht := t.members_newObject_self
        exact hs.symm ▸ ht.symm ▸ Dictionary.twins_empty
  functions hab := by
    obtain ⟨f, g, hf, hg, hfg⟩ := h.functions hab
    exact ⟨f, g, hf, hg, hfg.mono Pairing.le_addObject⟩
  oneCell := h.oneCell
  oneObject := by
    refine biUnique_withPair h.oneObject (fun b hab => ?_) fun a hab => ?_
    · exact Nat.lt_irrefl _ (h.objects hab).1
    · exact Nat.lt_irrefl _ (h.objects hab).2.1
  oneFunction := h.oneFunction

theorem newFunction (h : s.Twins π t) {f g : Callable} (hfg : f.Twins π g) :
    (s.newFunction f).2.Twins (π.addFunction (s.newFunction f).1 (t.newFunction g).1)
      (t.newFunction g).2 where
  cells hab := by
    obtain ⟨ha, hb, hcell⟩ := h.cells hab
    exact ⟨ha, hb, hcell.mono Pairing.le_addFunction⟩
  objects := h.objects
  functions := by
    rintro a b (hab | ⟨rfl, rfl⟩)
    · obtain ⟨f', g', ha, hb, hfg'⟩ := h.functions hab
      exact ⟨f', g', (function?_newFunction_of_lt (lt_of_function? ha) f).trans ha,
        (function?_newFunction_of_lt (lt_of_function? hb) g).trans hb,
        hfg'.mono Pairing.le_addFunction⟩
    · exact ⟨f, g, s.function?_newFunction_self f, t.function?_newFunction_self g,
        hfg.mono Pairing.le_addFunction⟩
  oneCell := h.oneCell
  oneObject := h.oneObject
  oneFunction := by
    refine biUnique_withPair h.oneFunction (fun b hab => ?_) fun a hab => ?_
    · obtain ⟨_, _, ha, _⟩ := h.functions hab
      exact Nat.lt_irrefl _ (lt_of_function? ha)
    · obtain ⟨_, _, _, hb, _⟩ := h.functions hab
      exact Nat.lt_irrefl _ (lt_of_function? hb)

theorem putMember (h : s.Twins π t) {o o' : ObjectId} (ho : π.object o o') (name : Name)
    (hab : π.cell a b) : (s.putMember o name a).Twins π (t.putMember o' name b) where
  cells := h.cells
  objects := by
    intro x y hxy
    obtain ⟨hx, hy, hmembers⟩ := h.objects hxy
    refine ⟨Nat.lt_of_lt_of_eq hx Array.size_modify.symm,
      Nat.lt_of_lt_of_eq hy Array.size_modify.symm, ?_⟩
    by_cases same : x = o
    · obtain rfl := (eq_iff_eq_of_biUnique h.oneObject hxy ho).mp same
      subst same
      rw [members_putMember_self hx, members_putMember_self hy]
      exact hmembers.insert name hab
    · have other : y ≠ o' := fun same' =>
        same ((eq_iff_eq_of_biUnique h.oneObject hxy ho).mpr same')
      rw [members_putMember_of_ne same, members_putMember_of_ne other]
      exact hmembers
  functions := h.functions
  oneCell := h.oneCell
  oneObject := h.oneObject
  oneFunction := h.oneFunction

end Store.Twins

end PageScript
