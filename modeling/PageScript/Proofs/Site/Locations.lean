import PageScript.Proofs.Site.NormalForm

/-!
# Proofs/Site/Locations — where directives lead

Without symbolic links the locations of a file system form a tree (`FileTree`), and a path is followed
through it part by part (`FileTree.locate`).  Its normal form leads to the same location
(`FileTree.locate_normalize`), and two absolute paths to one location have one normal form
(`FileTree.normalize_eq`).  So directives that lead from a file to one location have one target.

A virtual path is read from the document root whatever file it stands in.  Nothing keeps it there: each
`..` that is left in front of its normal form takes a name of the root away, and only if the names behind
them put back what they took does the directive lead into the root (`Include.target_rooted`).
-/

namespace PageScript

open PageScript.Path (Component pieces)

/-- The locations of a file system without symbolic links: each one, the root apart, is in one
directory, under one name. -/
structure FileTree (Location : Type) where
  root : Location
  /-- The location in a directory under a name, if there is one. -/
  entry? : Location → List Char → Option Location
  /-- The directory that a location is in; above the root there is the root. -/
  up : Location → Location
  up_root : up root = root
  up_entry {directory name place} : entry? directory name = some place → up place = directory
  entry_ne_root {directory name place} : entry? directory name = some place → place ≠ root
  name_unique {directory name name' place} : entry? directory name = some place →
    entry? directory name' = some place → name = name'

namespace FileTree

variable {Location : Type} (t : FileTree Location)

/-- The tree in which a location is the names that lead to it, the last first, and all are there. -/
def ofNames : FileTree (List (List Char)) where
  root := []
  entry? directory name := some (name :: directory)
  up := List.tail
  up_root := rfl
  up_entry := by
    rintro directory name place ⟨⟩
    rfl
  entry_ne_root := by
    rintro directory name place ⟨⟩
    exact List.cons_ne_nil _ _
  name_unique := by
    rintro directory name name' place ⟨⟩ ⟨⟩
    rfl

/-- Where a part of a path leads from a location. -/
def follow (place : Location) (piece : List Char) : Option Location :=
  if piece = [] ∨ piece = ['.'] then some place
  else if piece = ['.', '.'] then some (t.up place)
  else t.entry? place piece

/-- **The location that a path leads to**: an absolute path from the root, another from where one is. -/
def locate (start : Location) (p : Path) : Option Location :=
  (pieces p.text.toList).foldlM t.follow (if p.isAbsolute then t.root else start)

/-! ## Following components -/

/-- Where a component leads from a location. -/
def step (place : Location) : Component → Option Location
  | .root => some t.root
  | .here => some place
  | .up => some (t.up place)
  | .name chars => t.entry? place chars

variable {t} {start place place' : Location} {p q : Path} {names names' : List (List Char)}

theorem follow_eq (piece : List Char) :
    t.follow place piece = ((Component.ofPiece? piece).elim (some place) (t.step place)) := by
  rw [follow, Component.ofPiece?]
  split
  · rfl
  · split <;> rfl

theorem foldlM_follow (parts : List (List Char)) :
    parts.foldlM t.follow start = (parts.filterMap Component.ofPiece?).foldlM t.step start := by
  induction parts generalizing start with
  | nil => rfl
  | cons piece parts ih =>
    rw [List.foldlM_cons, follow_eq, List.filterMap_cons]
    cases Component.ofPiece? piece with
    | none => exact ih
    | some c =>
      rw [List.foldlM_cons]
      exact bind_congr fun place => ih

theorem locate_eq_foldlM (start : Location) (p : Path) :
    t.locate start p = p.components.foldlM t.step start := by
  rw [locate, foldlM_follow, Path.components_eq_append, List.foldlM_append]
  cases absolute : p.isAbsolute with
  | true =>
    rw [Path.front_of_isAbsolute absolute]
    rfl
  | false =>
    obtain front | front := Path.front_of_isRelative absolute <;> rw [front] <;> rfl

theorem foldlM_concat_eq_some {α β : Type} {f : β → α → Option β} {xs : List α} {x : α} {b c : β} :
    (xs ++ [x]).foldlM f b = some c ↔ ∃ d, xs.foldlM f b = some d ∧ f d x = some c := by
  simp [List.foldlM_append, Option.bind_eq_some_iff]

/-- Where `..` takes away what is on top of the stack, the tree leads back to where that began. -/
theorem foldlM_climb (stack : List Component) {c : Component}
    (h : (stack.reverse ++ [c]).foldlM t.step start = some place) :
    (Path.climb stack c).reverse.foldlM t.step start = some place := by
  have pushed (same : Path.climb stack c = c :: stack) :
      (Path.climb stack c).reverse.foldlM t.step start = some place := by
    rwa [same, List.reverse_cons]
  cases c with
  | root | name => exact pushed rfl
  | here =>
    obtain ⟨before, reached, ⟨⟩⟩ := foldlM_concat_eq_some.mp h
    exact reached
  | up =>
    cases stack with
    | nil => exact pushed rfl
    | cons last rest =>
      cases last with
      | here | up => exact pushed rfl
      | root =>
        obtain ⟨before, reached, ⟨⟩⟩ := foldlM_concat_eq_some.mp h
        rw [List.reverse_cons] at reached
        obtain ⟨first, -, atRoot⟩ := foldlM_concat_eq_some.mp reached
        cases atRoot
        rw [t.up_root]
        exact (List.reverse_cons).symm ▸ reached
      | name chars =>
        obtain ⟨before, reached, ⟨⟩⟩ := foldlM_concat_eq_some.mp h
        rw [List.reverse_cons] at reached
        obtain ⟨first, reached, entered⟩ := foldlM_concat_eq_some.mp reached
        rw [t.up_entry entered]
        exact reached

theorem foldlM_resolved {cs : List Component} (h : cs.foldlM t.step start = some place) :
    (Path.resolved cs).foldlM t.step start = some place := by
  induction cs using List.reverseRecOn generalizing place with
  | nil => exact h
  | append_singleton cs c ih =>
    obtain ⟨before, reached, stepped⟩ := foldlM_concat_eq_some.mp h
    rw [Path.resolved, List.foldl_append]
    refine foldlM_climb (cs.foldl Path.climb []) ?_
    exact foldlM_concat_eq_some.mpr ⟨before, ih reached, stepped⟩

/-- **The normal form of a path leads where the path does.** -/
theorem locate_normalize (h : t.locate start p = some place) :
    t.locate start p.normalize = some place := by
  rw [locate_eq_foldlM] at h ⊢
  rw [Path.components_normalize]
  exact foldlM_resolved h

/-! ## One normal form for a location -/

theorem names_unique (h : names.foldlM t.entry? t.root = some place)
    (h' : names'.foldlM t.entry? t.root = some place) : names = names' := by
  induction names using List.reverseRecOn generalizing names' place with
  | nil =>
    cases h
    obtain rfl | ⟨before, name, rfl⟩ := List.eq_nil_or_concat' names'
    · rfl
    · obtain ⟨directory, -, entered⟩ := foldlM_concat_eq_some.mp h'
      exact absurd rfl (t.entry_ne_root entered)
  | append_singleton names name ih =>
    obtain ⟨directory, reached, entered⟩ := foldlM_concat_eq_some.mp h
    obtain rfl | ⟨names', name', rfl⟩ := List.eq_nil_or_concat' names'
    · cases h'
      exact absurd rfl (t.entry_ne_root entered)
    · obtain ⟨directory', reached', entered'⟩ := foldlM_concat_eq_some.mp h'
      obtain rfl : directory = directory' := (t.up_entry entered).symm.trans (t.up_entry entered')
      rw [ih reached reached', t.name_unique entered entered']

theorem foldlM_under (names : List (List Char)) :
    (Path.under names).foldlM t.step start = names.foldlM t.entry? t.root := by
  change (names.map Component.name).foldlM t.step t.root = _
  rw [List.foldlM_map]
  rfl

/-- **Absolute paths to one location have one normal form.** -/
theorem normalize_eq (hp : p.isAbsolute = true) (hq : q.isAbsolute = true)
    (h : t.locate start p = some place) (h' : t.locate start q = some place) :
    p.normalize = q.normalize := by
  rw [locate_eq_foldlM] at h h'
  have normal := Path.isNormal_resolved p
  have normal' := Path.isNormal_resolved q
  rw [hp] at normal
  rw [hq] at normal'
  have reached := foldlM_resolved h
  have reached' := foldlM_resolved h'
  rw [Path.normalize, Path.normalize]
  generalize Path.resolved p.components = cs at normal reached
  generalize Path.resolved q.components = cs' at normal' reached'
  cases normal
  cases normal'
  rw [foldlM_under] at reached reached'
  rw [names_unique reached reached']

end FileTree

/-! ## Targets of directives -/

namespace Path

variable {d p : Path}

theorem isAbsolute_ofComponents_root (cs : List Component) :
    (ofComponents (.root :: cs)).isAbsolute = true := by
  rw [isAbsolute, decide_eq_true_iff]
  cases cs with
  | nil => rfl
  | cons c rest =>
    change (String.ofList ('/' :: joined (c :: rest))).toList.head? = some '/'
    rw [String.toList_ofList]
    rfl

/-- The directory of an absolute path is absolute. -/
theorem isAbsolute_of_parent? (absolute : p.isAbsolute = true) (h : p.parent? = some d) :
    d.isAbsolute = true := by
  have components : p.components = .root :: p.steps := by
    rw [components_eq_append, front_of_isAbsolute absolute]
    rfl
  rw [parent?, components] at h
  cases steps : p.steps with
  | nil =>
    rw [steps] at h
    cases h
  | cons c rest =>
    rw [steps] at h
    split at h
    · cases h
    · cases h
    · cases h
      exact isAbsolute_ofComponents_root _

theorem isAbsolute_join (absolute : d.isAbsolute = true) (p : Path) : (d.join p).isAbsolute = true := by
  cases relative : p.isAbsolute with
  | true => rwa [join_of_isAbsolute relative]
  | false =>
    rw [isAbsolute_iff, components_join_of_isAbsolute absolute relative]
    exact List.mem_append_left _ (isAbsolute_iff.mp absolute)

end Path

namespace Include

/-- The path of a directive as it is written, with slashes for backslashes. -/
def written (i : Include) : Path :=
  ⟨String.ofList (i.path.toList.map fun c => if c = '\\' then '/' else c)⟩

/-- The path of a directive, read from the directory of the file that it stands in. -/
def joined (source : Path) (i : Include) : Path := (source.parent?.getD ⟨""⟩).join i.written

theorem target_of_isVirtual_eq_false {i : Include} (h : i.isVirtual = false) (root source : Path) :
    i.target root source = (i.joined source).normalize := by
  rw [target, h]
  exact if_neg Bool.false_ne_true

end Include

/-- **Normal forms are canonical and lead where the paths do.**  A normal form holds no `.`, and `..`
only at the front of a relative path; normalizing it changes nothing, also not inside a directory, and
`..` at the root stays there.  So if directives lead from a file to one location, however they are
written, their targets are equal. -/
theorem Path.normalize_canonical {Location : Type} (t : FileTree Location) (start : Location) :
    (∀ p : Path, IsNormal p.isAbsolute p.normalize.components ∧
      ['.'] ∉ pieces p.normalize.text.toList ∧ p.normalize.normalize = p.normalize) ∧
    (∀ d p : Path, d.isAbsolute = true → (d.join p).normalize = (d.join p.normalize).normalize) ∧
    (∀ d p : Path, d.normalize = ⟨"/"⟩ → p.isAbsolute = false →
      (d.join ⟨"../" ++ p.text⟩).normalize = (d.join p).normalize) ∧
    (∀ (p : Path) (place : Location), t.locate start p = some place →
      t.locate start p.normalize = some place) ∧
    ∀ (root source directory : Path) (i j : Include) (place : Location),
      source.isAbsolute = true → source.parent? = some directory →
      i.isVirtual = false → j.isVirtual = false →
      t.locate start (i.joined source) = some place → t.locate start (j.joined source) = some place →
      i.target root source = j.target root source := by
  refine ⟨fun p => ⟨?_, ?_, normalize_normalize p⟩,
    fun d p absolute => (normalize_join_normalize p absolute).symm,
    fun d p => normalize_join_up, fun p place => FileTree.locate_normalize, ?_⟩
  · rw [components_normalize]
    exact isNormal_resolved p
  · exact (isNormal_resolved p).here_notMem_pieces
  · intro root source directory i j place absolute parent file file' reached reached'
    have joined_isAbsolute (i : Include) : (i.joined source).isAbsolute = true := by
      rw [Include.joined, parent]
      exact isAbsolute_join (isAbsolute_of_parent? absolute parent) _
    rw [Include.target_of_isVirtual_eq_false file, Include.target_of_isVirtual_eq_false file']
    exact FileTree.normalize_eq (joined_isAbsolute i) (joined_isAbsolute j) reached reached'

theorem Path.normalize_canonical_header :
    ((⟨"/srv/www"⟩ : Path).join ⟨"inc/./../lib"⟩).normalize =
        ((⟨"/srv/www"⟩ : Path).join (⟨"inc/./../lib"⟩ : Path).normalize).normalize ∧
      ((⟨"/srv/.."⟩ : Path).join ⟨"../" ++ "lib"⟩).normalize =
        ((⟨"/srv/.."⟩ : Path).join ⟨"lib"⟩).normalize ∧
      FileTree.ofNames.locate [] (⟨"/srv/../lib"⟩ : Path).normalize = some ["lib".toList] ∧
      (⟨".\\inc//header.inc", false⟩ : Include).target ⟨"/srv"⟩ ⟨"/srv/www/cart.asp"⟩ =
        (⟨"../www/inc/header.inc", false⟩ : Include).target ⟨"/srv"⟩ ⟨"/srv/www/cart.asp"⟩ :=
  have canonical := Path.normalize_canonical FileTree.ofNames []
  ⟨canonical.2.1 ⟨"/srv/www"⟩ ⟨"inc/./../lib"⟩ (by decide),
    canonical.2.2.1 ⟨"/srv/.."⟩ ⟨"lib"⟩ (by decide) (by decide),
    canonical.2.2.2.1 ⟨"/srv/../lib"⟩ ["lib".toList] (by decide),
    canonical.2.2.2.2 ⟨"/srv"⟩ ⟨"/srv/www/cart.asp"⟩ ⟨"/srv/www"⟩ ⟨".\\inc//header.inc", false⟩
      ⟨"../www/inc/header.inc", false⟩ ["header.inc".toList, "inc".toList, "www".toList, "srv".toList]
      (by decide) (by decide) rfl rfl (by decide) (by decide)⟩

/-! ## Virtual directives -/

namespace Path

variable {names further : List (List Char)} {p d : Path}

theorem under_prefix_under : under names <+: under further ↔ names <+: further := by
  have injective : Function.Injective Component.name := fun _ _ same => Component.name.inj same
  rw [under, under, List.cons_prefix_cons, List.prefix_map_iff_of_injective injective]
  exact and_iff_right rfl

/-- Names that replace the last ones of a list leave it in front exactly if they begin with those. -/
theorem prefix_take_append_iff {α : Type} (xs ys : List α) (n : ℕ) :
    xs <+: xs.take n ++ ys ↔ xs.drop n <+: ys := by
  conv_lhs => lhs; rw [← List.take_append_drop n xs]
  exact List.prefix_append_right_inj _

/-- Where a directory leads when some `..` and then names are read from it. -/
theorem resolved_join_under (hd : resolved d.components = under names) (relative : p.isAbsolute = false)
    {climbs : ℕ} (hp : resolved p.components = List.replicate climbs .up ++ further.map .name) :
    resolved (d.join p).components = under (names.take (names.length - climbs) ++ further) := by
  have absolute : d.isAbsolute = true := by
    have normal := isNormal_resolved d
    rw [hd] at normal
    exact normal.root_mem_iff.mp List.mem_cons_self
  rw [resolved_join absolute relative, hd, hp, List.foldl_append, foldl_climb_under_ups,
    foldl_climb_names, List.reverse_append, List.reverse_reverse, List.reverse_reverse, under_append]

end Path

open PageScript.Path (under)

namespace Include

/-- The path of a virtual directive without the slashes in front of it, as it is read from the document
root. -/
def relative (i : Include) : Path :=
  ⟨String.ofList (i.written.text.toList.dropWhile (· = '/'))⟩

theorem isAbsolute_relative (i : Include) : i.relative.isAbsolute = false := by
  rw [relative, Path.isAbsolute, String.toList_ofList, decide_eq_false_iff_not]
  intro slash
  have dropped := List.head?_dropWhile_not (· = '/') i.written.text.toList
  rw [slash] at dropped
  cases dropped

theorem target_of_isVirtual {i : Include} (h : i.isVirtual = true) (root source : Path) :
    i.target root source = (root.join i.relative).normalize := by
  rw [target, h, relative, written, String.toList_ofList]
  exact if_pos rfl

/-- **A virtual directive leads to a place that its own path and the document root determine.**  As many
names of the root are taken away as there are `..` in front of the path's normal form; what is left of
that form follows.  The target is inside the root exactly if the names behind the `..` begin with those
taken away, so in any case if the normal form has no `..`. -/
theorem target_rooted (root : Path) (absolute : root.isAbsolute = true) (i : Include)
    (isVirtual : i.isVirtual = true) :
    (∀ source source', i.target root source = i.target root source') ∧
    (∃ names climbs further,
      root.normalize.components = under names ∧
      i.relative.normalize.components = List.replicate climbs .up ++ further.map .name ∧
      ∀ source,
        (i.target root source).components = under (names.take (names.length - climbs) ++ further) ∧
        (root.normalize.components <+: (i.target root source).components ↔
          names.drop (names.length - climbs) <+: further)) ∧
    (.up ∉ i.relative.normalize.components → ∀ source,
      root.normalize.components <+: (i.target root source).components) := by
  have normal := Path.isNormal_resolved root
  have normal' := Path.isNormal_resolved i.relative
  rw [absolute] at normal
  rw [isAbsolute_relative] at normal'
  rw [Path.components_normalize, Path.components_normalize]
  generalize hroot : Path.resolved root.components = cs at normal
  generalize hpath : Path.resolved i.relative.components = cs' at normal'
  cases normal with
  | @absolute names =>
    cases normal' with
    | @relative climbs further =>
      have target_components (source : Path) :
          (i.target root source).components = under (names.take (names.length - climbs) ++ further) := by
        rw [target_of_isVirtual isVirtual, Path.components_normalize,
          Path.resolved_join_under hroot i.isAbsolute_relative hpath]
      have inside_iff (source : Path) : under names <+: (i.target root source).components ↔
          names.drop (names.length - climbs) <+: further := by
        rw [target_components, Path.under_prefix_under, Path.prefix_take_append_iff]
      refine ⟨fun source source' => ?_,
        ⟨names, climbs, further, rfl, rfl, fun source => ⟨target_components source, inside_iff source⟩⟩,
        fun noClimb source => (inside_iff source).mpr ?_⟩
      · rw [target_of_isVirtual isVirtual, target_of_isVirtual isVirtual]
      · cases climbs with
        | zero =>
          rw [Nat.sub_zero, List.drop_length]
          exact List.nil_prefix
        | succ climbs => exact absurd (List.mem_append_left _ List.mem_cons_self) noClimb

theorem target_rooted_header :
    (⟨"/lib\\..\\inc/header.inc", true⟩ : Include).target ⟨"/srv/www"⟩ ⟨"/srv/www/cart.asp"⟩ =
        (⟨"/lib\\..\\inc/header.inc", true⟩ : Include).target ⟨"/srv/www"⟩ ⟨"/tmp/cart.asp"⟩ ∧
      (⟨"/srv/www"⟩ : Path).normalize.components <+:
        ((⟨"/lib\\..\\inc/header.inc", true⟩ : Include).target ⟨"/srv/www"⟩
          ⟨"/tmp/cart.asp"⟩).components :=
  have rooted := target_rooted ⟨"/srv/www"⟩ (by decide) ⟨"/lib\\..\\inc/header.inc", true⟩ rfl
  ⟨rooted.1 _ _, rooted.2.2 (by decide) _⟩

/-- A virtual directive can lead out of the document root. -/
theorem exists_target_not_rooted :
    ∃ (root source : Path) (i : Include), root.isAbsolute = true ∧ i.isVirtual = true ∧
      i.target root source = ⟨"/srv/secret.inc"⟩ ∧
      ¬root.normalize.components <+: (i.target root source).components :=
  ⟨⟨"/srv/www"⟩, ⟨"/srv/www/a.asp"⟩, ⟨"../secret.inc", true⟩, by decide⟩

end Include

end PageScript
