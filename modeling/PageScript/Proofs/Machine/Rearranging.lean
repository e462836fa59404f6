import PageScript.Proofs.Machine.Closedness
import PageScript.Proofs.Machine.Declarators

/-!
# Proofs/Machine/Rearranging — where a declaration stands does not matter

Statements that only declare may be moved to other places among the statements of a body.  What they
declare is then declared in another order, which makes the same cells and functions under other
numbers: the states that come of it are peers (`State.peers_of_declares`).  Executing a declaration
does nothing, so the same statements are executed from there, and peers run the same
(`Evaluator.runBody_rearranged`).
-/

namespace PageScript

open Run

/-! ## Things with a key -/

section Keyed

variable {α κ : Type} {old : α → Prop} {p q : κ → α → Prop}

/-- Old things correspond to themselves, and new ones to those with the same key. -/
def Keyed (old : α → Prop) (p q : κ → α → Prop) (x y : α) : Prop :=
  x = y ∧ old x ∨ ∃ key, p key x ∧ q key y

/-- Each key belongs to one new thing at most, and no two keys to the same one. -/
structure IsKey (old : α → Prop) (p : κ → α → Prop) : Prop where
  one : ∀ {key x y}, p key x → p key y → x = y
  apart : ∀ {key key' x}, p key x → p key' x → key = key'
  new : ∀ {key x}, p key x → ¬old x

theorem biUnique_keyed (hp : IsKey old p) (hq : IsKey old q) : Relator.BiUnique (Keyed old p q) := by
  constructor
  · rintro x x' y (⟨rfl, hx⟩ | ⟨key, hx, hy⟩) (⟨rfl, hx'⟩ | ⟨key', hx', hy'⟩)
    · rfl
    · exact absurd hx (hq.new hy')
    · exact absurd hx' (hq.new hy)
    · obtain rfl := hq.apart hy hy'
      exact hp.one hx hx'
  · rintro x y y' (⟨rfl, hx⟩ | ⟨key, hx, hy⟩) (⟨rfl, hx'⟩ | ⟨key', hx', hy'⟩)
    · rfl
    · exact absurd hx (hp.new hx')
    · exact absurd hx' (hp.new hx)
    · obtain rfl := hp.apart hx hx'
      exact hq.one hy hy'

end Keyed

/-! ## Declared in another order -/

variable {c : FrameId} {s t u : State} {ds ds' : List Declarator}

namespace State

/-- The name of a declaration is bound to a cell. -/
def Binds (c : FrameId) (ds : List Declarator) (t : State) (d : Declarator) (cell : CellId) : Prop :=
  d ∈ ds ∧ (t.frames.get c).bindings.get? d.name.text = some cell

/-- The name of a declaration is bound to a cell that holds a function. -/
def BindsFunction (c : FrameId) (ds : List Declarator) (t : State) (d : Declarator) (id : FunctionId) :
    Prop :=
  ∃ cell, Binds c ds t d cell ∧ t.store.read cell = .function id

/-- What was there before corresponds to itself, and what the same declaration has made to each
other. -/
def declared (s : State) (c : FrameId) (ds : List Declarator) (t u : State) : Pairing where
  cell := Keyed s.Reaches (Binds c ds t) (Binds c ds u)
  object := s.own.object
  function := Keyed (fun id => s.Holds (.function id)) (BindsFunction c ds t) (BindsFunction c ds u)

theorem own_le_declared : s.own ≤ s.declared c ds t u := ⟨.inl, fun h => h, .inl⟩

namespace Declares

theorem binds (h : s.Declares c ds t) {d : Declarator} {cell : CellId} (hd : Binds c ds t d cell) :
    s.store.cells.size ≤ cell.index ∧ cell.index < t.store.cells.size ∧
      d.IsIn c s t (t.store.cell cell) := by
  obtain ⟨_, bound, facts⟩ := h.named d hd.1
  cases bound.symm.trans hd.2
  exact facts

theorem bindsFunction (h : s.Declares c ds t) {d : Declarator} {id : FunctionId}
    (hd : BindsFunction c ds t d id) : ∃ decl, d = .procedure decl ∧
      s.store.functions.size ≤ id.index ∧ t.store.function? id = some (.script decl c) := by
  obtain ⟨cell, bound, held⟩ := hd
  exact (h.binds bound).2.2.exists_procedure held

theorem isKey_binds (h : s.Declares c ds t) (closed : s.IsClosed) :
    IsKey s.Reaches (Binds c ds t) where
  one hx hy := Option.some.inj (hx.2.symm.trans hy.2)
  apart hx hx' := h.apart _ hx.1 _ hx'.1 (hx.2.trans hx'.2.symm)
  new hx reached := Nat.not_lt_of_le (h.binds hx).1 (closed.cells reached)

theorem isKey_bindsFunction (h : s.Declares c ds t) (closed : s.IsClosed) :
    IsKey (fun id => s.Holds (.function id)) (BindsFunction c ds t) where
  one := by
    rintro d _ _ ⟨cell, hcell, hx⟩ ⟨_, hcell', hy⟩
    obtain rfl := (h.isKey_binds closed).one hcell hcell'
    exact Value.function.inj (hx.symm.trans hy)
  apart hx hx' := by
    obtain ⟨decl, rfl, -, stored⟩ := h.bindsFunction hx
    obtain ⟨decl', rfl, -, stored'⟩ := h.bindsFunction hx'
    cases stored.symm.trans stored'
    rfl
  new hx held := by
    obtain ⟨_, -, new, -⟩ := h.bindsFunction hx
    exact Nat.not_lt_of_le new (closed.functions held)

theorem objects_eq (h : s.Declares c ds t) : t.store.objects = s.store.objects :=
  (congrArg (fun t : State => t.store.objects) h.rest).trans rfl

theorem members_eq (h : s.Declares c ds t) (id : ObjectId) : t.store.members id = s.store.members id := by
  rw [Store.members, Store.members, h.objects_eq]

/-- Only what is declared matters. -/
theorem congr (h : s.Declares c ds t) (same : ∀ d, d ∈ ds' ↔ d ∈ ds) : s.Declares c ds' t :=
  { h with
    unnamed := fun name unnamed => h.unnamed name fun d hd => unnamed d ((same d).mpr hd)
    named := fun d hd => h.named d ((same d).mp hd)
    apart := fun d hd d' hd' => h.apart d ((same d).mp hd) d' ((same d').mp hd') }

section

variable (ht : s.Declares c ds t) (hu : s.Declares c ds u)

include ht hu

/-- The same declaration has left the same in both cells. -/
theorem twins_of_binds {d : Declarator} {a b : CellId} (ha : Binds c ds t d a) (hb : Binds c ds u d b) :
    (t.store.cell a).Twins (s.declared c ds t u) (u.store.cell b) := by
  obtain ⟨-, -, left⟩ := ht.binds ha
  obtain ⟨-, -, right⟩ := hu.binds hb
  cases d with
  | «variable» name =>
    have left : t.store.cell a = ⟨.empty, false⟩ := left
    have right : u.store.cell b = ⟨.empty, false⟩ := right
    rw [left, right]
    exact ⟨rfl, .plain rfl⟩
  | constant name value =>
    have left : t.store.cell a = ⟨.ofLiteral value, true⟩ := left
    have right : u.store.cell b = ⟨.ofLiteral value, true⟩ := right
    rw [left, right]
    exact ⟨rfl, Value.twins_ofLiteral value⟩
  | procedure decl =>
    obtain ⟨f, left, -⟩ := left
    obtain ⟨g, right, -⟩ := right
    have made : (s.declared c ds t u).function f g :=
      .inr ⟨_, ⟨a, ha, congrArg Cell.value left⟩, ⟨b, hb, congrArg Cell.value right⟩⟩
    rw [left, right]
    exact ⟨rfl, .function made⟩

variable (closed : s.IsClosed)

include closed

theorem function?_declared {a b : FunctionId} (h : (s.declared c ds t u).function a b) :
    ∃ f g, t.store.function? a = some f ∧ u.store.function? b = some g ∧
      f.Twins (s.declared c ds t u) g := by
  obtain ⟨rfl, held⟩ | ⟨d, hd, hd'⟩ := h
  · obtain ⟨f, g, stored, stored', twins⟩ := closed.peers.store.functions ⟨rfl, held⟩
    exact ⟨f, g, ht.recalls _ _ stored, hu.recalls _ _ stored', twins.mono own_le_declared⟩
  · obtain ⟨decl, rfl, -, stored⟩ := ht.bindsFunction hd
    obtain ⟨_, ⟨⟩, -, stored'⟩ := hu.bindsFunction hd'
    exact ⟨_, _, stored, stored', .script⟩

theorem peers_store : t.store.Peers (s.declared c ds t u) u.store where
  cells := by
    rintro a b (⟨rfl, reached⟩ | ⟨d, ha, hb⟩)
    · obtain ⟨live, -, twins⟩ := closed.peers.store.cells ⟨rfl, reached⟩
      obtain ⟨live, kept⟩ := ht.cells a live
      obtain ⟨live', kept'⟩ := hu.cells a (closed.cells reached)
      rw [kept, kept']
      exact ⟨live, live', twins.mono own_le_declared⟩
    · exact ⟨(ht.binds ha).2.1, (hu.binds hb).2.1, ht.twins_of_binds hu ha hb⟩
  objects := by
    rintro a b paired
    obtain ⟨live, live', twins⟩ := closed.peers.store.objects paired
    rw [ht.objects_eq, hu.objects_eq, ht.members_eq, hu.members_eq]
    exact ⟨live, live', twins.mono fun _ _ => own_le_declared.cell⟩
  functions := ht.function?_declared hu closed
  oneCell := biUnique_keyed (ht.isKey_binds closed) (hu.isKey_binds closed)
  oneObject := closed.peers.store.oneObject
  oneFunction := biUnique_keyed (ht.isKey_bindsFunction closed) (hu.isKey_bindsFunction closed)
  numbered paired := paired.1
  objectCount := congrArg Array.size (ht.objects_eq.trans hu.objects_eq.symm)

omit closed in
/-- The frame has the same names, in whatever order. -/
theorem peers_frame (id : FrameId) :
    (t.frames.get id).Peers (s.declared c ds t u).cell (u.frames.get id) := by
  have before (id : FrameId) : (s.frames.get id).Peers (s.declared c ds t u).cell (s.frames.get id) :=
    .refl fun _ _ bound => .inl ⟨rfl, .variable bound⟩
  by_cases here : id = c
  · subst here
    refine ⟨fun name => ?_, ?_, ?_, ?_, ?_⟩
    · by_cases named : ∃ d ∈ ds, d.name.text = name
      · obtain ⟨d, hd, rfl⟩ := named
        obtain ⟨a, bound, -⟩ := ht.named d hd
        obtain ⟨b, bound', -⟩ := hu.named d hd
        rw [bound, bound']
        exact .some (.inr ⟨d, ⟨hd, bound⟩, ⟨hd, bound'⟩⟩)
      · have unnamed : ∀ d ∈ ds, d.name.text ≠ name := fun d hd same => named ⟨d, hd, same⟩
        rw [ht.unnamed name unnamed, hu.unnamed name unnamed]
        exact (before _).bindings name
    · exact (congrArg Frame.parent ht.own).trans (congrArg Frame.parent hu.own).symm
    · exact (congrArg Frame.explicit ht.own).trans (congrArg Frame.explicit hu.own).symm
    · exact (congrArg Frame.frozen ht.own).trans (congrArg Frame.frozen hu.own).symm
    · exact (congrArg Frame.procedure ht.own).trans (congrArg Frame.procedure hu.own).symm
  · rw [ht.others id here, hu.others id here]
    exact before id

/-- **Names declared in another order make peers**: what the same declaration has made corresponds, and
what was there before is still there in both. -/
theorem peers : t.Peers (s.declared c ds t u) u where
  store := ht.peers_store hu closed
  frames := ⟨ht.size.trans hu.size.symm, ht.peers_frame hu⟩
  objects := by
    rw [ht.rest, hu.rest]
    exact closed.peers.objects.imp fun _ _ => own_le_declared.cell
  depth := (congrArg State.depth ht.rest).trans (congrArg State.depth hu.rest).symm
  limit := (congrArg State.limit ht.rest).trans (congrArg State.limit hu.rest).symm
  request := (congrArg (·.world.request) ht.rest).trans (congrArg (·.world.request) hu.rest).symm
  clock := (congrArg (·.world.clock) ht.rest).trans (congrArg (·.world.clock) hu.rest).symm
  response := (congrArg (·.world.response) ht.rest).trans (congrArg (·.world.response) hu.rest).symm
  log := (congrArg (·.world.log) ht.rest).trans (congrArg (·.world.log) hu.rest).symm

end

end Declares

end State

/-! ## Declarations among statements -/

namespace Stmt

/-- The statement declares a variable or a constant. -/
def isDeclarator : Stmt → Bool
  | .dim .. | .const .. => true
  | _ => false

/-- The statement does nothing but declare: a procedure, a variable or a constant, or a group of
variables or constants. -/
def isDeclaration : Stmt → Bool
  | .procedure .. => true
  | .block _ body => body.all isDeclarator
  | stmt => stmt.isDeclarator

/-- Declarations have been moved to other places among statements; all other statements stand in the
order in which they stood. -/
structure Rearranges (body body' : List Stmt) : Prop where
  perm : body.Perm body'
  others : body.filter (!·.isDeclaration) = body'.filter (!·.isDeclaration)

/-- A declaration is moved in front of some statements. -/
theorem Rearranges.move {stmt : Stmt} (declares : stmt.isDeclaration = true)
    (before between behind : List Stmt) :
    Rearranges (before ++ (between ++ stmt :: behind)) (before ++ stmt :: (between ++ behind)) where
  perm := List.perm_middle.append_left before
  others := by
    have skipped (rest : List Stmt) :
        (stmt :: rest).filter (!·.isDeclaration) = rest.filter (!·.isDeclaration) :=
      List.filter_cons_of_neg (by simp [declares])
    simp only [List.filter_append, skipped]

theorem declaratorsIn_eq_flatMap (body : List Stmt) : declaratorsIn body = body.flatMap declarators := by
  induction body with
  | nil => rfl
  | cons stmt rest ih => exact congrArg (stmt.declarators ++ ·) ih

/-- The same is declared, in another order. -/
theorem Rearranges.declaratorsIn {body body' : List Stmt} (h : Rearranges body body') :
    (Stmt.declaratorsIn body).Perm (Stmt.declaratorsIn body') := by
  rw [declaratorsIn_eq_flatMap, declaratorsIn_eq_flatMap]
  exact h.perm.flatMap_right declarators

end Stmt

namespace Evaluator

variable {bound : Nat}

theorem execute_declarator : ∀ {stmt : Stmt}, stmt.isDeclarator = true → ∀ bound s,
    (ofBound (bound + 1)).execute c stmt s = .done () s
  | .dim .., _, _, _ | .const .., _, _, _ => rfl

theorem executeBody_declarators : ∀ {body : List Stmt}, body.all Stmt.isDeclarator = true →
    (ofBound (bound + 1)).executeBody c body s = .done () s
  | [], _ => rfl
  | stmt :: rest, h => by
    obtain ⟨first, further⟩ := Bool.and_eq_true_iff.mp h
    have done : Run.within stmt.span ((ofBound (bound + 1)).execute c stmt) s = .done () s := by
      rw [within_eq_map, execute_declarator first]
      rfl
    exact (bind_of_done done).trans (executeBody_declarators further)

/-- Executing a declaration does nothing. -/
theorem execute_declaration : ∀ {stmt : Stmt}, stmt.isDeclaration = true →
    (ofBound (bound + 2)).execute c stmt s = .done () s
  | .procedure .., _ => rfl
  | .dim .., _ | .const .., _ => rfl
  | .block _ body, h =>
    show (ofBound (bound + 1)).executeBody c body s = .done () s from executeBody_declarators h

/-- What is executed of a body are the statements that are no declarations. -/
theorem executeBody_filter (body : List Stmt) (s : State) :
    (ofBound (bound + 2)).executeBody c body s =
      (ofBound (bound + 2)).executeBody c (body.filter (!·.isDeclaration)) s := by
  induction body generalizing s with
  | nil => rfl
  | cons stmt rest ih =>
    cases declares : stmt.isDeclaration with
    | true =>
      have done : Run.within stmt.span ((ofBound (bound + 2)).execute c stmt) s = .done () s := by
        rw [within_eq_map, execute_declaration declares]
        rfl
      rw [List.filter_cons_of_neg (by simp [declares])]
      exact (bind_of_done done).trans (ih s)
    | false =>
      rw [List.filter_cons_of_pos (by simp [declares])]
      exact bind_congr _ (fun _ t => ih t) s

/-- Names that can be declared can be declared in another order, and that makes peers. -/
theorem declareBody_rearranged (closed : s.IsClosed) (live : c.index < s.frames.size)
    {body body' : List Stmt} (h : Stmt.Rearranges body body')
    (hoists : Stmt.declareBody c body s = .done () t) :
    ∃ π u, Stmt.declareBody c body' s = .done () u ∧ s.own ≤ π ∧ t.Peers π u := by
  have declared := (Stmt.agrees_declareBody body s).done_iff.mp hoists
  obtain ⟨admits, rfl⟩ := (Declarator.declareAll_eq_done_iff live).mp declared
  have admits' := admits.perm h.declaratorsIn
  have declared' := (Declarator.declareAll_eq_done_iff live).mpr ⟨admits', rfl⟩
  have declares' := (admits'.declares live).congr fun d => h.declaratorsIn.mem_iff
  exact ⟨_, _, (Stmt.agrees_declareBody body' s).done_iff.mpr declared', State.own_le_declared,
    (admits.declares live).peers declares' closed⟩

/-- **Where a declaration stands does not matter.**  If the names of a body can be declared in a frame
of a closed state, they can be declared from the body with its declarations moved to other places.
Both bodies then run in the same way: they end with the same fault at the same place or both succeed,
and the states that they end in are peers, under a pairing in which everything that was there before
corresponds to itself.  So they have written the same, and in each frame the same names have the same
values, up to the numbers of cells and functions.  The bound only has to be large enough to pass over a
group of declarations. -/
theorem runBody_rearranged (closed : s.IsClosed) (live : c.index < s.frames.size)
    {body body' : List Stmt} (h : Stmt.Rearranges body body')
    (hoists : Stmt.declareBody c body s = .done () t) (enough : 2 ≤ bound) :
    (∃ u, Stmt.declareBody c body' s = .done () u) ∧
      ((ofBound bound).runBody c body s).Accords State.Peers s.own Same
        ((ofBound bound).runBody c body' s) := by
  obtain ⟨bound, rfl⟩ := Nat.exists_eq_add_of_le' enough
  obtain ⟨π, u, hoists', le, peers⟩ := declareBody_rearranged closed live h hoists
  have left : (ofBound (bound + 2)).runBody c body s =
      (ofBound (bound + 2)).executeBody c (body.filter (!·.isDeclaration)) t :=
    (bind_of_done hoists).trans (executeBody_filter body t)
  have right : (ofBound (bound + 2)).runBody c body' s =
      (ofBound (bound + 2)).executeBody c (body.filter (!·.isDeclaration)) u :=
    (bind_of_done hoists').trans (h.others ▸ executeBody_filter body' u)
  rw [left, right]
  refine ⟨⟨u, hoists'⟩, ?_⟩
  have same := (accords_peers (bound + 2)).executeBody (c := c)
    (body.filter (!·.isDeclaration)) π t u (le_refl π) peers
  exact same.mono le fun _ _ _ h => h

/-- A function is called before and behind its declaration. -/
theorem runBody_rearranged_function :
    let f := Name.ofString "f"
    let x := Name.ofString "x"
    let answer : Procedure :=
      .mk f .function [] [.assign default (.var default f) (.literal default (.number 42))] .isPublic
    let call : Stmt := .assign default (.var default x) (.var default f)
    let body := [call, .dim default x none .isPublic, .procedure default answer]
    let body' := [.procedure default answer, call, .dim default x none .isPublic]
    let s := (State.start default 8).pushRoot.2
    s.IsClosed ∧ 0 < s.frames.size ∧ Stmt.Rearranges body body' ∧
      (∃ t, Stmt.declareBody ⟨0⟩ body s = .done () t) ∧ 2 ≤ 5 ∧
        (∃ u, Stmt.declareBody ⟨0⟩ body' s = .done () u) ∧
          ((ofBound 5).runBody ⟨0⟩ body s).Accords State.Peers s.own Same
            ((ofBound 5).runBody ⟨0⟩ body' s) := by
  intro f x answer call body body' s
  have closed : s.IsClosed := by
    refine State.isClosed_of_unbound (fun id name => ?_) rfl
    rcases id with ⟨_ | _⟩ <;> rfl
  have rearranges : Stmt.Rearranges body body' := .move rfl [] [call, .dim default x none .isPublic] []
  have hoists : ∃ t, Stmt.declareBody ⟨0⟩ body s = .done () t := ⟨_, rfl⟩
  exact ⟨closed, Nat.one_pos, rearranges, hoists, by decide,
    runBody_rearranged closed Nat.one_pos rearranges hoists.choose_spec (by decide)⟩

end Evaluator

end PageScript
