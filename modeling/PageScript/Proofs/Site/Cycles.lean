import Mathlib.Data.List.Chain
import Mathlib.Data.List.Nodup
import Mathlib.Logic.Relation
import PageScript.Proofs.Site.Attaching

/-!
# Proofs/Site/Cycles — expansion fails exactly at the cycles of the include graph

The files of a page are the nodes of a graph, with a link for each include directive.  While a file
is expanded, the files above it are a path through that graph from the page (`Includer.IsOpen`)
without repetition.  All but the page load, so the path is no longer than the number of files that do,
and the bound of `Includer.expand` is never reached.  Hence expansion stops only at a file that does
not load and at a directive that leads back into the path.
-/

namespace PageScript.Includer

open Stmt (IncludesIn)
open Relation (TransGen ReflTransGen)

/-! ## The graph -/

/-- The normalized path that a directive in a file leads to. -/
def leads (inc : Includer) (directive : Include) (source : Path) : Path :=
  (inc.target directive source).normalize

/-- What the file at a normalized path holds, where `body` is what the page holds. -/
def contentOf (inc : Includer) (page : Path) (body : List Stmt) (file : Path) :
    Except PageFault (List Stmt) :=
  if file = page.normalize then .ok body else inc.load file

/-- A file holds a directive that leads to the next one. -/
def Links (inc : Includer) (page : Path) (body : List Stmt) (file next : Path) : Prop :=
  ∃ content directive, inc.contentOf page body file = .ok content ∧
    IncludesIn directive content ∧ inc.leads directive file = next

/-- A file is the page or included by it, directly or through others. -/
def Reaches (inc : Includer) (page : Path) (body : List Stmt) : Path → Prop :=
  ReflTransGen (inc.Links page body) page.normalize

/-- No file of a page includes itself, directly or through others. -/
def IsAcyclic (inc : Includer) (page : Path) (body : List Stmt) : Prop :=
  ∀ file, inc.Reaches page body file → ¬ TransGen (inc.Links page body) file file

/-- Files that lead from the page to one of themselves, which is the last; no other repeats. -/
structure IsCycle (inc : Includer) (page : Path) (body : List Stmt) (chain : List Path) : Prop where
  starts : chain.head? = some page.normalize
  links : chain.IsChain (inc.Links page body)
  closes : ∃ files last, chain = files ++ [last] ∧ last ∈ files ∧ files.Nodup

/-- The size of an includer bounds how many normalized paths load. -/
def IsFinite (inc : Includer) : Prop :=
  ∀ files : List Path, files.Nodup →
    (∀ file ∈ files, (∃ path : Path, file = path.normalize) ∧ ∃ body, inc.load file = .ok body) →
      files.length ≤ inc.size

/-- Loading fails for reasons of the file itself: it follows no directives. -/
def LoadsAlone (inc : Includer) : Prop :=
  ∀ file f, inc.load file = .error f → f ≠ .exhausted ∧ ∀ chain, f ≠ .includeCycle chain

variable {inc : Includer} {page : Path} {body content included : List Stmt} {source : Path}
  {above : List Path}

/-! ## The files being expanded -/

/-- What a directive of a file being expanded gets attached. -/
def attachWithin (inc : Includer) (bound : Nat) (source : Path) (above : List Path)
    (directive : Include) : Except PageFault (List Stmt) :=
  if inc.leads directive source ∈ source :: above then
    .error (.includeCycle ((inc.leads directive source :: source :: above).reverse))
  else do
    let included ← inc.load (inc.leads directive source)
    inc.expandWithin bound (inc.leads directive source) (source :: above) included

theorem expandWithin_succ (bound : Nat) :
    inc.expandWithin (bound + 1) source above content =
      Stmt.expandBody (inc.attachWithin bound source above) content := rfl

/-- The file `source`, which holds `content`, is being expanded, inside the files `above` it. -/
structure IsOpen (inc : Includer) (page : Path) (body : List Stmt) (source : Path)
    (above : List Path) (content : List Stmt) : Prop where
  links : (source :: above).IsChain (flip (inc.Links page body))
  starts : (source :: above).getLast? = some page.normalize
  distinct : (source :: above).Nodup
  holds : inc.contentOf page body source = .ok content

theorem isOpen_page : inc.IsOpen page body page.normalize [] body where
  links := .singleton _
  starts := rfl
  distinct := List.nodup_singleton _
  holds := if_pos rfl

namespace IsOpen

theorem page_mem (h : inc.IsOpen page body source above content) :
    page.normalize ∈ source :: above := List.mem_of_getLast? h.starts

theorem links_of_includesIn (h : inc.IsOpen page body source above content) {directive : Include}
    (hd : IncludesIn directive content) :
    inc.Links page body source (inc.leads directive source) :=
  ⟨content, directive, h.holds, hd, rfl⟩

/-- A directive that leads out of the open files opens its own. -/
theorem next (h : inc.IsOpen page body source above content) {directive : Include}
    (hd : IncludesIn directive content) (new : inc.leads directive source ∉ source :: above)
    (loads : inc.load (inc.leads directive source) = .ok included) :
    inc.IsOpen page body (inc.leads directive source) (source :: above) included where
  links := .cons_cons (h.links_of_includesIn hd) h.links
  starts := h.starts
  distinct := List.nodup_cons.mpr ⟨new, h.distinct⟩
  holds := (if_neg fun same => new (by rw [same]; exact h.page_mem)).trans loads

theorem reaches_of_mem : ∀ {files : List Path},
    files.IsChain (flip (inc.Links page body)) → files.getLast? = some page.normalize →
      ∀ file ∈ files, inc.Reaches page body file
  | [last], _, starts, file, hfile => by
    cases starts
    exact List.mem_singleton.mp hfile ▸ .refl
  | _ :: next :: rest, .cons_cons link links, starts, file, hfile => by
    have ih := reaches_of_mem links starts
    obtain rfl | hfile := List.mem_cons.mp hfile
    · exact (ih next List.mem_cons_self).tail link
    · exact ih file hfile

theorem reaches (h : inc.IsOpen page body source above content) : inc.Reaches page body source :=
  reaches_of_mem h.links h.starts source List.mem_cons_self

/-- Every open file has been read. -/
theorem contentOf_of_mem : ∀ {files : List Path} {file : Path},
    (file :: files).IsChain (flip (inc.Links page body)) →
      (∃ content, inc.contentOf page body file = .ok content) →
        ∀ other ∈ file :: files, ∃ content, inc.contentOf page body other = .ok content
  | [], file, _, holds, other, hother => List.mem_singleton.mp hother ▸ holds
  | next :: rest, file, .cons_cons link links, holds, other, hother => by
    obtain rfl | hother := List.mem_cons.mp hother
    · exact holds
    · obtain ⟨content, _, holds, -⟩ := link
      exact contentOf_of_mem links ⟨content, holds⟩ other hother

/-- The open files below the page load, so there are no more of them than files that do. -/
theorem length_le (finite : inc.IsFinite) (h : inc.IsOpen page body source above content) :
    above.length ≤ inc.size := by
  have split : (source :: above).dropLast ++ [page.normalize] = source :: above :=
    List.dropLast_append_getLast? _ h.starts
  have distinct := h.distinct
  rw [← split] at distinct
  have below : (source :: above).dropLast.length ≤ inc.size := by
    refine finite _ (List.nodup_append.mp distinct).1 fun file hfile => ?_
    have hmem : file ∈ source :: above := List.dropLast_subset _ hfile
    have other : file ≠ page.normalize :=
      (List.nodup_append.mp distinct).2.2 file hfile _ List.mem_cons_self
    obtain ⟨content, holds⟩ := contentOf_of_mem h.links ⟨_, h.holds⟩ file hmem
    refine ⟨?_, content, (if_neg other).symm.trans holds⟩
    obtain same | ⟨_, _, link⟩ := (reaches_of_mem h.links h.starts file hmem).cases_tail
    · exact absurd same other
    · obtain ⟨_, directive, _, _, leads⟩ := link
      exact ⟨_, leads.symm⟩
  rwa [List.length_dropLast] at below

end IsOpen

/-! ## Expansion of an open file -/

/-- A bound that is large enough for the open files does not matter. -/
theorem expandWithin_eq (finite : inc.IsFinite) : ∀ {bound bound' : Nat} {source : Path}
    {above : List Path} {content : List Stmt}, inc.IsOpen page body source above content →
      inc.size < bound + above.length → inc.size < bound' + above.length →
        inc.expandWithin bound source above content = inc.expandWithin bound' source above content
  | 0, _, _, _, _, hopen, h, _ => absurd (hopen.length_le finite) (by omega)
  | _, 0, _, _, _, hopen, _, h => absurd (hopen.length_le finite) (by omega)
  | bound + 1, bound' + 1, source, above, content, hopen, h, h' => by
    rw [expandWithin_succ, expandWithin_succ]
    refine Stmt.expandBody_congr fun directive hd => ?_
    simp only [attachWithin]
    split
    · rfl
    · rename_i new
      cases loads : inc.load (inc.leads directive source) with
      | error f => rfl
      | ok included =>
        exact expandWithin_eq finite (hopen.next hd new loads)
          (by simp only [List.length_cons]; omega) (by simp only [List.length_cons]; omega)

/-- Expansion fails at a directive that leads back into the open files, or as a file does. -/
theorem fault_of_expandWithin (finite : inc.IsFinite) {f : PageFault} : ∀ {bound : Nat}
    {source : Path} {above : List Path} {content : List Stmt},
      inc.IsOpen page body source above content → inc.size < bound + above.length →
        inc.expandWithin bound source above content = .error f →
          (∃ chain, f = .includeCycle chain ∧ inc.IsCycle page body chain) ∨
            ∃ file, inc.Reaches page body file ∧ file ≠ page.normalize ∧ inc.load file = .error f
  | 0, _, _, _, hopen, h, _ => absurd (hopen.length_le finite) (by omega)
  | bound + 1, source, above, content, hopen, h, fails => by
    rw [expandWithin_succ] at fails
    obtain ⟨directive, hd, fails⟩ := Stmt.exists_of_expandBody_eq_error fails
    simp only [attachWithin] at fails
    split at fails
    · rename_i back
      cases fails
      refine .inl ⟨_, rfl, ?_, ?_, _, _, List.reverse_cons, List.mem_reverse.mpr back,
        List.nodup_reverse.mpr hopen.distinct⟩
      · rw [List.head?_reverse]
        exact hopen.starts
      · rw [List.isChain_reverse]
        exact .cons_cons (hopen.links_of_includesIn hd) hopen.links
    · rename_i new
      cases loads : inc.load (inc.leads directive source) with
      | error g =>
        rw [loads] at fails
        cases fails
        exact .inr ⟨_, hopen.reaches.tail (hopen.links_of_includesIn hd),
          fun same => new (same ▸ hopen.page_mem), loads⟩
      | ok included =>
        rw [loads] at fails
        exact fault_of_expandWithin finite (hopen.next hd new loads)
          (by simp only [List.length_cons]; omega) fails

/-- A file that is expanded leads to none of the open files, and no file below it to itself. -/
theorem acyclic_of_expandWithin : ∀ {bound : Nat} {source : Path} {above : List Path}
    {content expanded : List Stmt}, inc.IsOpen page body source above content →
      inc.expandWithin bound source above content = .ok expanded →
        (∀ file, TransGen (inc.Links page body) source file → file ∉ source :: above) ∧
          ∀ file, ReflTransGen (inc.Links page body) source file →
            ¬ TransGen (inc.Links page body) file file
  | 0, _, _, _, _, _, h => nomatch h
  | bound + 1, source, above, content, expanded, hopen, h => by
    rw [expandWithin_succ] at h
    -- What holds below the files that `source` links to, which are expanded with one file more open.
    have below (next) (hlink : inc.Links page body source next) : next ∉ source :: above ∧
        (∀ file, TransGen (inc.Links page body) next file → file ∉ next :: source :: above) ∧
          ∀ file, ReflTransGen (inc.Links page body) next file →
            ¬ TransGen (inc.Links page body) file file := by
      obtain ⟨content', directive, holds, hd, rfl⟩ := hlink
      cases hopen.holds.symm.trans holds
      obtain ⟨attached, ha⟩ := Stmt.attached_of_expandBody hd h
      simp only [attachWithin] at ha
      split at ha
      · nomatch ha
      · rename_i new
        cases loads : inc.load (inc.leads directive source) with
        | error f => rw [loads] at ha; nomatch ha
        | ok included =>
          rw [loads] at ha
          exact ⟨new, acyclic_of_expandWithin (hopen.next hd new loads) ha⟩
    have apart (file) (hfile : TransGen (inc.Links page body) source file) :
        file ∉ source :: above := by
      obtain ⟨next, hlink, hrest⟩ := TransGen.head'_iff.mp hfile
      obtain ⟨new, apart, -⟩ := below next hlink
      obtain rfl | hrest := Relation.reflTransGen_iff_eq_or_transGen.mp hrest
      · exact new
      · exact fun hmem => apart file hrest (List.mem_cons_of_mem _ hmem)
    refine ⟨apart, fun file hfile => ?_⟩
    obtain rfl | ⟨next, hlink, hrest⟩ := hfile.cases_head
    · exact fun cycle => apart source cycle List.mem_cons_self
    · exact (below next hlink).2.2 file hrest

/-! ## Expansion of a page -/

theorem IsCycle.not_isAcyclic {chain : List Path} (h : inc.IsCycle page body chain) :
    ¬ inc.IsAcyclic page body := by
  obtain ⟨files, last, rfl, hlast, -⟩ := h.closes
  obtain ⟨front, back, rfl⟩ := List.append_of_mem hlast
  have reached : inc.Reaches page body last :=
    IsOpen.reaches_of_mem (List.isChain_reverse.mpr h.links) (List.getLast?_reverse.trans h.starts)
      last (List.mem_reverse.mpr (List.mem_append_right _ List.mem_cons_self))
  have around : (last :: (back ++ [last])).IsChain (TransGen (inc.Links page body)) := by
    have links := h.links
    rw [List.append_assoc] at links
    exact links.right_of_append.imp fun _ _ => .single
  exact fun acyclic => acyclic last reached
    (around.rel_cons (List.mem_append_right _ List.mem_cons_self))

/-- **Expansion fails exactly at cycles**: it never runs out of bound, succeeds if and only if no
file of the page includes itself, provided that all of them load, and reports files that lead from
the page to one of themselves. -/
theorem expand_succeeds_iff_isAcyclic (inc : Includer) (finite : inc.IsFinite)
    (alone : inc.LoadsAlone) (page : Path) (body : List Stmt) :
    (inc.expand page body ≠ .error .exhausted ∧
      ∀ bound, inc.size + 2 ≤ bound →
        inc.expandWithin bound page.normalize [] body = inc.expand page body) ∧
    ((∀ file, inc.Reaches page body file →
        ∃ content, inc.contentOf page body file = .ok content) →
      ((∃ expanded, inc.expand page body = .ok expanded) ↔ inc.IsAcyclic page body)) ∧
    ∀ chain, inc.expand page body = .error (.includeCycle chain) →
      inc.IsCycle page body chain := by
  have bounded : inc.size < inc.size + 2 + ([] : List Path).length := by
    simp only [List.length_nil]; omega
  have fails (f) (h : inc.expand page body = .error f) :=
    fault_of_expandWithin finite isOpen_page bounded h
  refine ⟨⟨fun h => ?_, fun bound h => ?_⟩, fun loads => ⟨?_, fun acyclic => ?_⟩, fun chain h => ?_⟩
  · obtain ⟨chain, same, -⟩ | ⟨file, -, -, h⟩ := fails _ h
    · cases same
    · exact (alone file _ h).1 rfl
  · exact expandWithin_eq finite isOpen_page (by simp only [List.length_nil]; omega) bounded
  · rintro ⟨expanded, h⟩
    exact (acyclic_of_expandWithin isOpen_page h).2
  · cases h : inc.expand page body with
    | ok expanded => exact ⟨expanded, rfl⟩
    | error f =>
      obtain ⟨chain, -, cycle⟩ | ⟨file, reached, other, fault⟩ := fails f h
      · exact absurd acyclic cycle.not_isAcyclic
      · obtain ⟨content, holds⟩ := loads file reached
        cases ((if_neg other).symm.trans holds).symm.trans fault
  · obtain ⟨_, same, cycle⟩ | ⟨file, -, -, h⟩ := fails _ h
    · cases same
      exact cycle
    · exact absurd rfl ((alone file _ h).2 chain)

/-- A page whose file includes itself. -/
theorem expand_succeeds_iff_isAcyclic_self :
    let again : List Stmt := [.includeFile default ⟨"a", false⟩ none]
    let inc : Includer := ⟨fun directive _ => ⟨directive.path⟩,
      fun file => if file = ⟨"a"⟩ then .ok again else .error (.unreadable file .notFound), 1⟩
    inc.IsFinite ∧ inc.LoadsAlone ∧
      inc.expand ⟨"p"⟩ again = .error (.includeCycle [⟨"p"⟩, ⟨"a"⟩, ⟨"a"⟩]) ∧
        inc.IsCycle ⟨"p"⟩ again [⟨"p"⟩, ⟨"a"⟩, ⟨"a"⟩] := by
  intro again inc
  have loads (file) (h : ∃ body, inc.load file = .ok body) : file = ⟨"a"⟩ := by
    obtain ⟨body, h⟩ := h
    by_contra other
    simp only [inc, if_neg other] at h
    nomatch h
  have finite : inc.IsFinite := fun files distinct h => by
    have only : files ⊆ [⟨"a"⟩] := fun file hfile =>
      List.mem_singleton.mpr (loads file (h file hfile).2)
    exact distinct.length_le_of_subset only
  have alone : inc.LoadsAlone := by
    intro file f h
    simp only [inc] at h
    split at h
    · nomatch h
    · cases h
      exact ⟨nofun, nofun⟩
  have page : (⟨"p"⟩ : Path).normalize = ⟨"p"⟩ := by decide
  have file : (⟨"a"⟩ : Path).normalize = ⟨"a"⟩ := by decide
  have fails : inc.expand ⟨"p"⟩ again = .error (.includeCycle [⟨"p"⟩, ⟨"a"⟩, ⟨"a"⟩]) := by
    simp [expand, expandWithin_succ, attachWithin, leads, inc, again, Stmt.expandBody, Stmt.expand,
      page, file]
    rfl
  exact ⟨finite, alone, fails,
    (expand_succeeds_iff_isAcyclic inc finite alone ⟨"p"⟩ again).2.2 _ fails⟩

end PageScript.Includer
