import Mathlib.Data.List.Basic
import Mathlib.Data.List.Induction
import PageScript.Proofs.Site.Spelling

/-!
# Proofs/Site/NormalForm — the normal form of a path

The components of a path are resolved one after another, on a stack that begins with the root or with
some `..` and goes on with names (`IsNormal`).  From wherever one starts, resolved components lead to
where the components themselves do (`foldl_climb_resolved`), so resolving twice changes nothing and a
path may be normalized before it is read from a directory (`normalize_join_normalize`).  What is normal
is written so that its components are read back (`components_normalize`).
-/

namespace PageScript.Path

variable {p d : Path} {cs : List Component} {names : List (List Char)}

/-! ## Parts of a text -/

/-- A part of a path that names an entry of a directory. -/
structure IsName (piece : List Char) : Prop where
  ne_nil : piece ≠ []
  ne_here : piece ≠ ['.']
  ne_up : piece ≠ ['.', '.']
  slash : '/' ∉ piece

/-- A component that leads from one place to another: up or to a name. -/
inductive Component.IsStep : Component → Prop
  | up : IsStep .up
  | name {chars : List Char} (h : IsName chars) : IsStep (.name chars)

namespace Component.IsStep

variable {c : Component}

theorem slash (h : c.IsStep) : '/' ∉ c.chars := by
  cases h with
  | up => decide
  | name h => exact h.slash

theorem ne_nil (h : c.IsStep) : c.chars ≠ [] := by
  cases h with
  | up => decide
  | name h => exact h.ne_nil

theorem ne_here (h : c.IsStep) : c.chars ≠ ['.'] := by
  cases h with
  | up => decide
  | name h => exact h.ne_here

/-- A step is read back from the part that it is written as. -/
theorem ofPiece?_chars (h : c.IsStep) : Component.ofPiece? c.chars = some c := by
  rw [Component.ofPiece?, if_neg (not_or.mpr ⟨h.ne_nil, h.ne_here⟩)]
  cases h with
  | up => rfl
  | name h => exact if_neg h.ne_up

end Component.IsStep

theorem slash_notMem_of_mem_pieces : ∀ {chars piece : List Char}, piece ∈ pieces chars → '/' ∉ piece
  | [], piece, h => by
    rw [List.mem_singleton.mp h]
    exact List.not_mem_nil
  | c :: rest, piece, h => by
    rw [pieces] at h
    split at h
    · obtain rfl | h := List.mem_cons.mp h
      · exact List.not_mem_nil
      · exact slash_notMem_of_mem_pieces h
    · rename_i other
      cases hrest : pieces rest with
      | nil => exact absurd hrest (pieces_ne_nil rest)
      | cons first further =>
        have earlier {piece : List Char} (h : piece ∈ first :: further) : '/' ∉ piece :=
          slash_notMem_of_mem_pieces (hrest.symm ▸ h)
        rw [hrest] at h
        obtain rfl | h := List.mem_cons.mp h
        · rw [List.mem_cons, not_or]
          exact ⟨Ne.symm other, earlier List.mem_cons_self⟩
        · exact earlier (List.mem_cons_of_mem _ h)

theorem pieces_of_slash_notMem : ∀ {chars : List Char}, '/' ∉ chars → pieces chars = [chars]
  | [], _ => rfl
  | c :: rest, h => by
    rw [List.mem_cons, not_or] at h
    rw [pieces, if_neg (Ne.symm h.1), pieces_of_slash_notMem h.2]

/-- The parts of components that are written with slashes between them. -/
theorem pieces_joined : ∀ {cs : List Component}, cs ≠ [] → (∀ c ∈ cs, '/' ∉ c.chars) →
    pieces (joined cs) = cs.map Component.chars
  | [c], _, h => pieces_of_slash_notMem (h c List.mem_cons_self)
  | c :: d :: rest, _, h => by
    rw [joined, pieces_append_slash, pieces_of_slash_notMem (h c List.mem_cons_self),
      pieces_joined (List.cons_ne_nil d rest) fun e he => h e (List.mem_cons_of_mem c he)]
    rfl

/-- What a path leads along, wherever it is read from. -/
def steps (p : Path) : List Component := (pieces p.text.toList).filterMap Component.ofPiece?

theorem components_eq_append (p : Path) : p.components = front p.text.toList ++ p.steps := rfl

theorem isStep_of_mem_steps {c : Component} (h : c ∈ p.steps) : c.IsStep := by
  obtain ⟨piece, mem, read⟩ := List.mem_filterMap.mp h
  rw [Component.ofPiece?] at read
  split at read
  · cases read
  · rename_i stays
    rw [not_or] at stays
    split at read
    · cases read
      exact .up
    · rename_i down
      cases read
      exact .name ⟨stays.1, stays.2, down, slash_notMem_of_mem_pieces mem⟩

theorem front_of_isAbsolute (absolute : p.isAbsolute = true) : front p.text.toList = [.root] := by
  rw [isAbsolute, decide_eq_true_iff] at absolute
  rw [front, if_pos absolute]

theorem front_of_isRelative (relative : p.isAbsolute = false) :
    front p.text.toList = [] ∨ front p.text.toList = [.here] := by
  rw [isAbsolute, decide_eq_false_iff_not] at relative
  rw [front, if_neg relative]
  split
  · exact .inr rfl
  · exact .inl rfl

theorem text_ne_nil_of_isAbsolute (absolute : p.isAbsolute = true) : p.text.toList ≠ [] := by
  intro nothing
  rw [isAbsolute, nothing] at absolute
  cases absolute

theorem steps_mk_up (chars : List Char) :
    (⟨String.ofList ('.' :: '.' :: '/' :: chars)⟩ : Path).steps =
      .up :: (⟨String.ofList chars⟩ : Path).steps := by
  have split : pieces ('.' :: '.' :: '/' :: chars) = ['.', '.'] :: pieces chars :=
    pieces_append_slash ['.', '.'] chars
  rw [steps, steps, String.toList_ofList, String.toList_ofList, split]
  rfl

/-! ## Climbing -/

/-- **Resolved components lead where the components do**, from any place. -/
theorem foldl_climb_resolved (stack cs : List Component) :
    (resolved cs).foldl climb stack = cs.foldl climb stack := by
  induction cs using List.reverseRecOn with
  | nil => rfl
  | append_singleton cs c ih =>
    rw [resolved] at ih ⊢
    rw [List.foldl_append, List.foldl_append, ← ih]
    generalize cs.foldl climb [] = top
    change (climb top c).reverse.foldl climb stack = climb (top.reverse.foldl climb stack) c
    have pushed (h : climb top c = c :: top) :
        (climb top c).reverse.foldl climb stack = climb (top.reverse.foldl climb stack) c := by
      rw [h, List.reverse_cons, List.foldl_append]
      rfl
    -- Where `..` takes away what is on top, it also does so behind the stack.
    cases c with
    | root | name => exact pushed rfl
    | here => rfl
    | up =>
      cases top with
      | nil => exact pushed rfl
      | cons last rest =>
        cases last with
        | here | up => exact pushed rfl
        | root =>
          change (Component.root :: rest).reverse.foldl climb stack = _
          rw [List.reverse_cons, List.foldl_append]
          rfl
        | name =>
          change rest.reverse.foldl climb stack = _
          rw [List.reverse_cons, List.foldl_append]
          rfl

theorem resolved_resolved (cs : List Component) : resolved (resolved cs) = resolved cs :=
  congrArg List.reverse (foldl_climb_resolved [] cs)

theorem foldl_climb_names (stack : List Component) (names : List (List Char)) :
    (names.map Component.name).foldl climb stack = (names.map Component.name).reverse ++ stack := by
  induction names generalizing stack with
  | nil => rfl
  | cons name names ih =>
    rw [List.map_cons, List.foldl_cons, ih, List.reverse_cons, List.append_assoc]
    rfl

theorem foldl_climb_ups (j k : ℕ) : (List.replicate k Component.up).foldl climb
    (List.replicate j .up) = List.replicate (k + j) .up := by
  induction k generalizing j with
  | zero => rw [Nat.zero_add]; rfl
  | succ k ih =>
    have climbed : climb (List.replicate j .up) .up = List.replicate (j + 1) .up := by cases j <;> rfl
    rw [List.replicate_succ, List.foldl_cons, climbed, ih, Nat.add_assoc, Nat.add_comm 1]

/-- The components of a place under the root. -/
def under (names : List (List Char)) : List Component := .root :: names.map .name

@[simp] theorem under_append (names further : List (List Char)) :
    under names ++ further.map .name = under (names ++ further) := by
  rw [under, under, List.map_append, List.cons_append]

/-- Behind a place under the root, each `..` takes a name away as long as there is one. -/
theorem foldl_climb_under_ups (names : List (List Char)) (k : ℕ) :
    (List.replicate k Component.up).foldl climb (under names).reverse =
      (under (names.take (names.length - k))).reverse := by
  induction k generalizing names with
  | zero => rw [Nat.sub_zero, List.take_length]; rfl
  | succ k ih =>
    rw [List.replicate_succ, List.foldl_cons]
    obtain rfl | ⟨names, name, rfl⟩ := List.eq_nil_or_concat' names
    · exact (ih []).trans (by rw [List.take_nil, List.take_nil])
    · have climbed : climb (under (names ++ [name])).reverse .up = (under names).reverse := by
        rw [← under_append, List.reverse_append]
        rfl
      have fewer : (names ++ [name]).length - (k + 1) = names.length - k := by simp
      rw [climbed, ih, fewer, List.take_append_of_le_length (Nat.sub_le _ _)]

/-! ## Normal components -/

/-- What the components of a path are resolved to: names, behind the root if the path is absolute, and
behind some `..` if it is not. -/
inductive IsNormal : (absolute : Bool) → List Component → Prop
  | absolute {names : List (List Char)} (h : ∀ name ∈ names, IsName name) : IsNormal true (under names)
  | relative (climbs : ℕ) {names : List (List Char)} (h : ∀ name ∈ names, IsName name) :
      IsNormal false (List.replicate climbs .up ++ names.map .name)

theorem isStep_of_mem_names (h : ∀ name ∈ names, IsName name) :
    ∀ c ∈ names.map Component.name, c.IsStep := by
  intro c hc
  obtain ⟨name, mem, rfl⟩ := List.mem_map.mp hc
  exact .name (h name mem)

namespace IsNormal

variable {absolute : Bool}

/-- Behind the root, normal components are steps. -/
theorem cases_steps (h : IsNormal absolute cs) :
    (∃ names, cs = under names) ∧ (∀ c ∈ cs.tail, c.IsStep) ∨ ∀ c ∈ cs, c.IsStep := by
  cases h with
  | @absolute names h => exact .inl ⟨⟨names, rfl⟩, isStep_of_mem_names h⟩
  | relative climbs h =>
    refine .inr fun c hc => ?_
    obtain hc | hc := List.mem_append.mp hc
    · rw [List.eq_of_mem_replicate hc]
      exact .up
    · exact isStep_of_mem_names h c hc

theorem root_mem_iff (h : IsNormal absolute cs) : .root ∈ cs ↔ absolute = true := by
  cases h with
  | absolute h => exact iff_of_true List.mem_cons_self rfl
  | relative climbs h =>
    refine iff_of_false (fun root => ?_) nofun
    obtain root | root := List.mem_append.mp root
    · cases List.eq_of_mem_replicate root
    · cases isStep_of_mem_names h _ root

/-- Normal components and one step more. -/
theorem climb {stack : List Component} (h : IsNormal absolute stack.reverse) {c : Component}
    (step : c.IsStep) : IsNormal absolute (Path.climb stack c).reverse := by
  generalize hcs : stack.reverse = cs at h
  obtain rfl : stack = cs.reverse := by rw [← hcs, List.reverse_reverse]
  have longer {names : List (List Char)} (h : ∀ name ∈ names, IsName name) {name : List Char}
      (hname : IsName name) : ∀ name' ∈ names ++ [name], IsName name' := by
    intro name' mem
    obtain mem | mem := List.mem_append.mp mem
    · exact h name' mem
    · exact List.mem_singleton.mp mem ▸ hname
  cases step with
  | up =>
    cases h with
    | @absolute names h =>
      have climbed := foldl_climb_under_ups names 1
      rw [List.replicate_one, List.foldl_cons, List.foldl_nil] at climbed
      rw [climbed, List.reverse_reverse]
      exact .absolute fun name mem => h name (List.mem_of_mem_take mem)
    | @relative climbs names h =>
      obtain rfl | ⟨names, name, rfl⟩ := List.eq_nil_or_concat' names
      · have climbed := foldl_climb_ups climbs 1
        rw [List.replicate_one, List.foldl_cons, List.foldl_nil] at climbed
        rw [List.map_nil, List.append_nil, List.reverse_replicate, climbed, List.reverse_replicate]
        exact List.append_nil (List.replicate _ Component.up) ▸ @relative _ [] nofun
      · rw [List.map_append, ← List.append_assoc, List.reverse_append]
        change IsNormal false (List.reverse (List.reverse _))
        rw [List.reverse_reverse]
        exact .relative climbs fun name mem => h name (List.mem_append_left _ mem)
  | @name name hname =>
    change IsNormal _ (Component.name name :: cs.reverse).reverse
    rw [List.reverse_cons, List.reverse_reverse]
    cases h with
    | @absolute names h => exact under_append names [name] ▸ absolute (longer h hname)
    | relative climbs h =>
      rw [List.append_assoc, ← List.map_singleton, ← List.map_append]
      exact relative climbs (longer h hname)

theorem foldl {stack : List Component} (h : IsNormal absolute stack.reverse)
    (steps : ∀ c ∈ cs, c.IsStep) : IsNormal absolute (cs.foldl Path.climb stack).reverse := by
  induction cs generalizing stack with
  | nil => exact h
  | cons c cs ih =>
    obtain ⟨step, steps⟩ := List.forall_mem_cons.mp steps
    exact ih (h.climb step) steps

end IsNormal

theorem isNormal_nil : IsNormal false [] := @IsNormal.relative 0 [] nofun

theorem isNormal_root : IsNormal true [.root] := @IsNormal.absolute [] nofun

/-- The resolved components of a relative path are those of its steps. -/
theorem resolved_of_isRelative (relative : p.isAbsolute = false) :
    resolved p.components = resolved p.steps := by
  rw [components_eq_append]
  obtain front | front := front_of_isRelative relative
  · rw [front]
    rfl
  · rw [front]
    rfl

/-- **The components of a path are resolved to normal ones.** -/
theorem isNormal_resolved (p : Path) : IsNormal p.isAbsolute (resolved p.components) := by
  cases absolute : p.isAbsolute with
  | true =>
    rw [components_eq_append, front_of_isAbsolute absolute]
    have start : IsNormal true [Component.root].reverse := isNormal_root
    exact start.foldl fun c => isStep_of_mem_steps
  | false =>
    rw [resolved_of_isRelative absolute]
    have start : IsNormal false [].reverse := isNormal_nil
    exact start.foldl fun c => isStep_of_mem_steps

/-! ## Normal paths -/

theorem filterMap_ofPiece?_chars (steps : ∀ c ∈ cs, c.IsStep) :
    (cs.map Component.chars).filterMap Component.ofPiece? = cs := by
  rw [List.filterMap_map]
  have same : ∀ c ∈ cs, (Component.ofPiece? ∘ Component.chars) c = some c := fun c hc =>
    (steps c hc).ofPiece?_chars
  rw [List.filterMap_congr same, List.filterMap_some]

/-- What is written in front of the parts of steps is nothing. -/
theorem front_joined (h : cs ≠ []) (steps : ∀ c ∈ cs, c.IsStep) : front (joined cs) = [] := by
  have parts := pieces_joined h fun c hc => (steps c hc).slash
  obtain ⟨c, further, rfl⟩ := List.exists_cons_of_ne_nil h
  have step := steps c List.mem_cons_self
  have first : (joined (c :: further)).head? ≠ some '/' := by
    have started : (joined (c :: further)).head? = c.chars.head? := by
      cases further with
      | nil => rfl
      | cons d rest => exact List.head?_append_of_ne_nil _ step.ne_nil
    rw [started]
    exact fun slash => step.slash (List.mem_of_mem_head? slash)
  rw [front, if_neg first, parts, if_neg]
  exact fun here => step.ne_here (Option.some.inj here)

/-- **Normal components are read back** from how they are written. -/
theorem IsNormal.components_ofComponents {absolute : Bool} (h : IsNormal absolute cs) :
    (ofComponents cs).components = cs := by
  obtain ⟨⟨names, rfl⟩, steps⟩ | steps := h.cases_steps
  · cases names with
    | nil => rfl
    | cons name further =>
      have written : ofComponents (under (name :: further)) =
          ⟨String.ofList ('/' :: joined ((name :: further).map .name))⟩ := rfl
      have parts := pieces_joined (List.cons_ne_nil _ _) fun c hc => (steps c hc).slash
      rw [written, components_mk, pieces, if_pos rfl, List.filterMap_cons_none rfl]
      exact congrArg _ ((congrArg _ parts).trans (filterMap_ofPiece?_chars steps))
  · cases cs with
    | nil => rfl
    | cons c further =>
      have written : ofComponents (c :: further) = ⟨String.ofList (joined (c :: further))⟩ := by
        cases steps c List.mem_cons_self <;> rfl
      rw [written, components_mk, front_joined (List.cons_ne_nil _ _) steps,
        pieces_joined (List.cons_ne_nil _ _) fun c hc => (steps c hc).slash]
      exact filterMap_ofPiece?_chars steps

/-- What normal components are written as has no part `.`. -/
theorem IsNormal.here_notMem_pieces {absolute : Bool} (h : IsNormal absolute cs) :
    ['.'] ∉ pieces (ofComponents cs).text.toList := by
  have parts : ∀ c ∈ cs, '/' ∉ c.chars ∧ c.chars ≠ ['.'] := by
    intro c hc
    obtain ⟨⟨names, rfl⟩, steps⟩ | steps := h.cases_steps
    · obtain rfl | hc := List.mem_cons.mp hc
      · decide
      · exact ⟨(steps c hc).slash, (steps c hc).ne_here⟩
    · exact ⟨(steps c hc).slash, (steps c hc).ne_here⟩
  by_cases root : cs = [.root]
  · subst root
    decide
  · rw [ofComponents.eq_2 cs root, String.toList_ofList]
    by_cases nothing : cs = []
    · subst nothing
      decide
    · rw [pieces_joined nothing fun c hc => (parts c hc).1, List.mem_map]
      rintro ⟨c, hc, here⟩
      exact (parts c hc).2 here

/-- **The components of a normalized path** are the resolved ones of the path. -/
theorem components_normalize (p : Path) : p.normalize.components = resolved p.components :=
  (isNormal_resolved p).components_ofComponents

theorem normalize_normalize (p : Path) : p.normalize.normalize = p.normalize := by
  rw [normalize, components_normalize, resolved_resolved, ← normalize]

theorem isAbsolute_normalize (p : Path) : p.normalize.isAbsolute = p.isAbsolute := by
  rw [Bool.eq_iff_iff, isAbsolute_iff, components_normalize]
  exact (isNormal_resolved p).root_mem_iff

/-! ## Normal paths in a directory -/

theorem components_join_of_isAbsolute (absolute : d.isAbsolute = true)
    (relative : p.isAbsolute = false) : (d.join p).components = d.components ++ p.steps :=
  components_join (text_ne_nil_of_isAbsolute absolute) relative

theorem join_of_isAbsolute (absolute : p.isAbsolute = true) : d.join p = p := if_pos absolute

/-- What a relative path leads to in a directory. -/
theorem resolved_join (absolute : d.isAbsolute = true) (relative : p.isAbsolute = false) :
    resolved (d.join p).components =
      ((resolved p.components).foldl climb (resolved d.components).reverse).reverse := by
  rw [components_join_of_isAbsolute absolute relative, resolved_of_isRelative relative,
    foldl_climb_resolved, resolved, resolved, List.foldl_append, List.reverse_reverse]

/-- **Normalizing a path does not change where it leads** in a directory. -/
theorem normalize_join_normalize (p : Path) (absolute : d.isAbsolute = true) :
    (d.join p.normalize).normalize = (d.join p).normalize := by
  have kept := isAbsolute_normalize p
  cases relative : p.isAbsolute with
  | true =>
    rw [relative] at kept
    rw [join_of_isAbsolute kept, join_of_isAbsolute relative, normalize_normalize]
  | false =>
    rw [relative] at kept
    refine congrArg ofComponents ?_
    rw [resolved_join absolute relative, resolved_join absolute kept, components_normalize,
      resolved_resolved]

/-- **Above the root there is the root**: a `..` at a directory that stands for the root changes
nothing. -/
theorem normalize_join_up (root : d.normalize = ⟨"/"⟩) (relative : p.isAbsolute = false) :
    (d.join ⟨"../" ++ p.text⟩).normalize = (d.join p).normalize := by
  have absolute : d.isAbsolute = true := by
    rw [← isAbsolute_normalize, root]
    rfl
  have place : resolved d.components = [.root] := by
    rw [← components_normalize, root]
    rfl
  have text : (⟨"../" ++ p.text⟩ : Path) = ⟨String.ofList ('.' :: '.' :: '/' :: p.text.toList)⟩ :=
    congrArg mk (String.toList_inj.mp (by rw [String.toList_append]; simp))
  have relative' : (⟨"../" ++ p.text⟩ : Path).isAbsolute = false := by
    rw [text, isAbsolute, String.toList_ofList]
    rfl
  have steps : (⟨"../" ++ p.text⟩ : Path).steps = .up :: p.steps := by
    rw [text, steps_mk_up, String.ofList_toList]
  rw [normalize, normalize, resolved_join absolute relative, resolved_join absolute relative', place,
    resolved_of_isRelative relative, resolved_of_isRelative relative', steps, foldl_climb_resolved,
    foldl_climb_resolved]
  rfl

end PageScript.Path
