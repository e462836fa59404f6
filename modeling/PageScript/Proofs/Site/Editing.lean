import PageScript.Proofs.Site.Cycles
import PageScript.Proofs.Site.Sharing

/-!
# Proofs/Site/Editing — files that change under a cache

What a page loads to depends on the files that are read for it: its own, and those that it includes
directly or through others (`PageCall.Reads`).  A reader that reads these alike loads the page alike
(`PageCall.uncached_congr`).  So a cache stays up to date over any edits if after each of them the
pages that the edited files are read for are dropped (`CachedSite.isAnswer_load_of_run`).  To drop the
edited paths themselves is not enough, since nothing is kept for a file that is only included: the
pages that include it go on showing what it held before (`CachedSite.exists_edit_ne_uncached`).
-/

namespace PageScript

open Relation (ReflTransGen)
open Stmt (IncludesIn)

/-! ## What a page depends on -/

namespace Includer

variable {inc inc' : Includer} {page : Path} {body content : List Stmt} {source : Path}
  {above : List Path}

/-- Includers that lead alike and load the files alike that a page includes expand the page alike. -/
theorem expandWithin_congr (target : inc.target = inc'.target)
    (load : ∀ file, inc.Reaches page body file → file ≠ page.normalize → inc.load file = inc'.load file) :
    ∀ {bound : Nat} {source : Path} {above : List Path} {content : List Stmt},
      inc.IsOpen page body source above content →
        inc.expandWithin bound source above content = inc'.expandWithin bound source above content
  | 0, _, _, _, _ => rfl
  | bound + 1, source, above, content, hopen => by
    rw [expandWithin_succ, expandWithin_succ]
    refine Stmt.expandBody_congr fun directive hd => ?_
    have leads : inc'.leads directive source = inc.leads directive source := by
      rw [leads, leads, target]
    simp only [attachWithin, leads]
    split
    · rfl
    · rename_i new
      have same := load _ (hopen.reaches.tail (hopen.links_of_includesIn hd))
        fun same => new (same ▸ hopen.page_mem)
      rw [← same]
      cases loads : inc.load (inc.leads directive source) with
      | error f => rfl
      | ok included => exact expandWithin_congr target load (hopen.next hd new loads)

/-- Expansion does not depend on the bounds either, where these are large enough. -/
theorem expand_congr (finite : inc.IsFinite) (finite' : inc'.IsFinite) (target : inc.target = inc'.target)
    (load : ∀ file, inc.Reaches page body file → file ≠ page.normalize → inc.load file = inc'.load file) :
    inc.expand page body = inc'.expand page body := by
  have within {inc : Includer} (finite : inc.IsFinite) {bound : Nat} (h : inc.size + 2 ≤ bound) :
      inc.expand page body = inc.expandWithin bound page.normalize [] body :=
    expandWithin_eq finite isOpen_page (by simp only [List.length_nil]; omega)
      (by simp only [List.length_nil]; omega)
  rw [within finite (Nat.le_max_left _ (inc'.size + 2)), expandWithin_congr target load isOpen_page,
    within finite' (Nat.le_max_right (inc.size + 2) _)]

end Includer

/-- A reader reads no more normalized paths than it says, and two spellings of a path alike. -/
structure Reader.IsRegular (reader : Reader) : Prop where
  steady : reader.IsSteady
  finite : ∀ files : List Path, files.Nodup →
    (∀ file ∈ files, (∃ path : Path, file = path.normalize) ∧ ∃ text, reader.read file = .ok text) →
      files.length ≤ reader.size

theorem Reader.IsRegular.isFinite_ofReader {reader : Reader} (h : reader.IsRegular) (rules : LoadRules) :
    (Includer.ofReader reader rules).IsFinite := fun files distinct loads => by
  refine h.finite files distinct fun file hfile => ⟨(loads file hfile).1, ?_⟩
  obtain ⟨body, load⟩ := (loads file hfile).2
  simp only [Includer.ofReader] at load
  cases read : reader.read file with
  | ok text => exact ⟨text, rfl⟩
  | error fault => rw [read] at load; cases load

namespace PageCall

/-- The paths that are read for a page: its own, and those of the files that it includes, directly or
through others. -/
def Reads (reader : Reader) (call : PageCall) (file : Path) : Prop :=
  file = call.path ∨
    ∃ body, (Includer.ofReader reader call.rules).load call.path = .ok body ∧
      (Includer.ofReader reader call.rules).Reaches call.path body file ∧ file ≠ call.path.normalize

/-- Readers that read alike what is read for a page load it alike. -/
theorem uncached_congr {reader reader' : Reader} (regular : reader.IsRegular)
    (regular' : reader'.IsRegular) {call : PageCall}
    (same : ∀ file, call.Reads reader file → reader'.read file = reader.read file) :
    call.uncached reader' = call.uncached reader := by
  have load {file : Path} (h : reader'.read file = reader.read file) :
      (Includer.ofReader reader' call.rules).load file = (Includer.ofReader reader call.rules).load file := by
    simp only [Includer.ofReader, h]
  simp only [uncached, Includer.loadPage, load (same _ (.inl rfl))]
  cases content : (Includer.ofReader reader call.rules).load call.path with
  | error f => rfl
  | ok body =>
    exact (Includer.expand_congr (regular.isFinite_ofReader call.rules)
      (regular'.isFinite_ofReader call.rules) rfl fun file reached other =>
        (load (same file (.inr ⟨body, content, reached, other⟩))).symm).symm

/-- For a page that expands without any file only its own path is read. -/
theorem Reads.eq_path {reader : Reader} {call : PageCall} {file : Path} (h : call.Reads reader file)
    (alone : ((Includer.ofReader reader call.rules).load call.path >>=
      Stmt.expandBody fun _ => .error .exhausted).isOk = true) : file = call.path := by
  obtain rfl | ⟨body, loads, reached, other⟩ := h
  · rfl
  · rw [loads] at alone
    obtain rfl | ⟨_, ⟨content, directive, held, hd, -⟩, -⟩ := ReflTransGen.cases_head reached
    · exact absurd rfl other
    · cases (if_pos rfl).symm.trans held
      cases expands : Stmt.expandBody (fun _ => .error .exhausted) body with
      | ok => nomatch (Stmt.attached_of_expandBody hd expands).choose_spec
      | error => nomatch alone.symm.trans (congrArg Except.isOk expands)

end PageCall

/-! ## A cache over files that change -/

/-- Files and a cache of pages. -/
structure CachedSite where
  reader : Reader
  cache : PageCache

/-- The cache without the pages at any of some paths. -/
def PageCache.drop (c : PageCache) (paths : List Path) : PageCache := paths.foldl invalidate c

theorem PageCache.mem_of_mem_drop : ∀ {paths : List Path} {c : PageCache} {e : CacheEntry},
    e ∈ (c.drop paths).entries → e ∈ c.entries
  | [], _, _, h => h
  | path :: paths, c, e, h =>
    have left : e ∈ (c.invalidate path).entries := mem_of_mem_drop (show e ∈ (drop _ paths).entries from h)
    (List.mem_filter.mp left).1

/-- A load adds no page but the one that it is for. -/
theorem PageCache.mem_of_mem_load {c : PageCache} {reader : Reader} {call : PageCall} {e : CacheEntry}
    (h : e ∈ (c.load reader call.rules call.path).2.entries) :
    e ∈ c.entries ∨ e.path = call.path ∧ e.rules = call.rules := by
  unfold load at h
  split at h
  · exact .inl h
  · split at h
    · obtain rfl | he := List.mem_cons.mp h
      · exact .inr ⟨rfl, rfl⟩
      · exact .inl (List.mem_filter.mp he).1
    · exact .inl h

namespace CachedSite

/-- What happens to a site: a page is loaded through the cache, pages are dropped, or files are edited
and then pages dropped, so that none is left that an edited file was read for. -/
inductive Step : CachedSite → CachedSite → Prop
  | load {reader cache} (call : PageCall) :
    Step ⟨reader, cache⟩ ⟨reader, (cache.load reader call.rules call.path).2⟩
  | drop {reader cache} (paths : List Path) : Step ⟨reader, cache⟩ ⟨reader, cache.drop paths⟩
  | edit {reader reader' cache} (regular : reader'.IsRegular) (paths : List Path)
    (enough : ∀ e ∈ (cache.drop paths).entries, ∀ file,
      PageCall.Reads reader ⟨e.path, e.rules⟩ file → reader'.read file = reader.read file) :
    Step ⟨reader, cache⟩ ⟨reader', cache.drop paths⟩

/-- The files are regular, and the pages in the cache are those that load from them. -/
structure IsCurrent (s : CachedSite) : Prop where
  regular : s.reader.IsRegular
  faithful : s.cache.IsFaithful s.reader

variable {s s' : CachedSite}

theorem Step.isCurrent (step : Step s s') (current : s.IsCurrent) : s'.IsCurrent := by
  obtain ⟨regular, faithful⟩ := current
  cases step with
  | load call => exact ⟨regular, (PageCall.isAnswer_load regular.steady faithful call).1⟩
  | drop paths => exact ⟨regular, fun e he => faithful e (PageCache.mem_of_mem_drop he)⟩
  | edit regular' paths enough =>
    refine ⟨regular', fun e he => ?_⟩
    exact (PageCall.uncached_congr regular regular' (enough e he)).trans
      (faithful e (PageCache.mem_of_mem_drop he))

theorem isCurrent_of_run (current : s.IsCurrent) (run : ReflTransGen Step s s') : s'.IsCurrent := by
  induction run with
  | refl => exact current
  | tail _ step ih => exact step.isCurrent ih

/-- The page at `page.asp` includes the file at `part.inc`. -/
def composed : Files :=
  ⟨[(["page.asp".toList], .file "<!-- #include file=\"part.inc\" -->".toUTF8),
    (["part.inc".toList], .file "x = 1".toUTF8)]⟩

/-- Where an included file is edited and its path dropped, a page that includes it is still loaded as
it was before: here the file does not even parse any more. -/
theorem exists_edit_ne_uncached :
    ∃ (files : Files) (edited : Path) (text : String) (call : PageCall),
      let files' := files.write edited (.file text.toUTF8)
      let cache := (PageCache.empty.load files.reader call.rules call.path).2.invalidate edited
      (cache.load files'.reader call.rules call.path).1 ≠ call.uncached files'.reader := by
  let call : PageCall := ⟨⟨"page.asp"⟩, Configuration.standard.loadRules⟩
  let files' := composed.write ⟨"part.inc"⟩ (.file ")".toUTF8)
  let cache := (PageCache.empty.load composed.reader call.rules call.path).2.invalidate ⟨"part.inc"⟩
  have kept : (cache.load files'.reader call.rules call.path).1.isOk = true := by decide +kernel
  have fails : (call.uncached files'.reader).isOk = false := by decide +kernel
  refine ⟨composed, ⟨"part.inc"⟩, ")", call, fun same => ?_⟩
  exact Bool.false_ne_true (fails.symm.trans ((congrArg Except.isOk same).symm.trans kept))

/-- **A cache stays up to date** over all edits after which the pages that the edited files are read
for are dropped: each page is loaded through it as it would be without it from the files as they are. -/
theorem isAnswer_load_of_run {reader : Reader} (regular : reader.IsRegular) {s : CachedSite}
    (run : ReflTransGen Step ⟨reader, .empty⟩ s) (call : PageCall) :
    call.IsAnswer s.reader (s.cache.load s.reader call.rules call.path).1 := by
  have current : s.IsCurrent := isCurrent_of_run ⟨regular, PageCache.isFaithful_empty reader⟩ run
  exact (PageCall.isAnswer_load current.regular.steady current.faithful call).2

/-- A reader of some files, each under one spelling of its path. -/
def listed (files : List (Path × String)) : Reader :=
  ⟨fun path => (files.lookup path).elim (.error .notFound) .ok, files.length⟩

theorem isRegular_listed {files : List (Path × String)}
    (apart : ∀ p ∈ files.map Prod.fst, ∀ q ∈ files.map Prod.fst, p.isSame q = true → p = q) :
    (listed files).IsRegular := by
  have mem {path : Path} {text : String} (h : (listed files).read path = .ok text) :
      path ∈ files.map Prod.fst := by
    cases found : files.lookup path with
    | none => simp only [listed, found] at h; nomatch h
    | some other =>
      obtain ⟨_, _, rfl, -⟩ := List.lookup_eq_some_iff.mp found
      exact List.mem_map_of_mem (List.mem_append_right _ List.mem_cons_self)
  refine ⟨fun p q same s t hs ht => ?_, fun paths distinct reads => ?_⟩
  · obtain rfl := apart p (mem hs) q (mem ht) same
    exact Except.ok.inj (hs.symm.trans ht)
  · have all : paths ⊆ files.map Prod.fst := fun path hpath => by
      obtain ⟨-, text, read⟩ := reads path hpath
      exact mem read
    exact Nat.le_trans (distinct.length_le_of_subset all) (Nat.le_of_eq (List.length_map _))

/-- A file that a page includes is edited and the page dropped; a page that includes nothing stays in
the cache. -/
theorem isAnswer_load_of_run_included :
    let call : PageCall := ⟨⟨"page.asp"⟩, Configuration.standard.loadRules⟩
    let plain : PageCall := ⟨⟨"plain.asp"⟩, Configuration.standard.loadRules⟩
    let reader (part : String) := listed [(⟨"page.asp"⟩, "<!-- #include file=\"part.inc\" -->"),
      (⟨"part.inc"⟩, part), (⟨"plain.asp"⟩, "hello")]
    let first := (PageCache.empty.load (reader "x = 1") call.rules call.path).2
    let filled := (first.load (reader "x = 1") plain.rules plain.path).2
    let cache := filled.drop [call.path]
    (reader "x = 1").IsRegular ∧ filled.entries.map CacheEntry.path = [plain.path, call.path] ∧
      cache.entries.map CacheEntry.path = [plain.path] ∧
      ReflTransGen Step ⟨reader "x = 1", .empty⟩ ⟨reader "x = 2", cache⟩ ∧
      call.IsAnswer (reader "x = 2") (cache.load (reader "x = 2") call.rules call.path).1 := by
  intro call plain reader first filled cache
  have apart : ∀ p ∈ [Path.mk "page.asp", ⟨"part.inc"⟩, ⟨"plain.asp"⟩],
      ∀ q ∈ [Path.mk "page.asp", ⟨"part.inc"⟩, ⟨"plain.asp"⟩], p.isSame q = true → p = q := by
    decide +kernel
  have regular (part : String) : (reader part).IsRegular := isRegular_listed apart
  have run : ReflTransGen Step ⟨reader "x = 1", .empty⟩ ⟨reader "x = 2", cache⟩ := by
    refine ((ReflTransGen.single (.load call)).tail (.load plain)).tail
      (.edit (regular _) [call.path] fun e he file reads => ?_)
    obtain ⟨kept, dropped⟩ := List.mem_filter.mp he
    obtain ⟨other, rules⟩ : e.path = plain.path ∧ e.rules = plain.rules := by
      obtain kept | same := PageCache.mem_of_mem_load kept
      · obtain none | ⟨same, -⟩ : e ∈ PageCache.empty.entries ∨ e.path = call.path ∧ e.rules = call.rules :=
          PageCache.mem_of_mem_load kept
        · nomatch none
        · rw [same] at dropped
          exact absurd dropped (by decide +kernel)
      · exact same
    rw [other, rules] at reads
    obtain rfl := reads.eq_path (by decide +kernel)
    rfl
  exact ⟨regular _, by decide +kernel, by decide +kernel, run, isAnswer_load_of_run (regular _) run call⟩

end CachedSite

end PageScript
