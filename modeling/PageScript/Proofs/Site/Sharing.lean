import Mathlib.Logic.Relation
import PageScript.Proofs.Site.Spelling
import PageScript.Site.Cache

/-!
# Proofs/Site/Sharing — callers that share a cache

Any number of callers ask one cache for pages, each under load rules of its own.  A call looks its
page up, loads it if it is not there, and puts it in; between two steps of a call the others take
theirs, and pages are invalidated meanwhile.  As long as the files stay as they are, each page in the
cache is one that loads (`PageCache.IsFaithful`), and each call gets what it would get without a
cache (`SharedCache.isAnswer_of_run`), with one exception.  The cache takes paths with the same
components for the same, a reader does not: a call for `page.asp/` gets the page `page.asp`, if that
is in the cache, but cannot read it (`SharedCache.exists_run_ne_uncached`).
-/

namespace PageScript

open Relation (ReflTransGen)

/-- A page is found under each spelling of the path that it was put in with. -/
theorem PageCache.get?_insert {path path' : Path} (h : path.isSame path' = true) (c : PageCache)
    (rules : LoadRules) (body : List Stmt) :
    (c.insert path rules body).get? path' rules = some body := by
  rw [get?, insert, List.find?_cons_of_pos]
  · rfl
  · rw [CacheEntry.isFor, h, LoadRules.isSame_refl, Bool.and_self]

/-- Every page in a cache is what loads at its path under its rules. -/
def PageCache.IsFaithful (c : PageCache) (reader : Reader) : Prop :=
  ∀ e ∈ c.entries, (Includer.ofReader reader e.rules).loadPage e.path = .ok e.body

theorem PageCache.isFaithful_empty (reader : Reader) : empty.IsFaithful reader :=
  fun _ he => absurd he List.not_mem_nil

/-- A call for a page: its path, and the load rules of the caller. -/
structure PageCall where
  path : Path
  rules : LoadRules

namespace PageCall

/-- What a call gets without a cache. -/
def uncached (reader : Reader) (call : PageCall) : Except PageFault (List Stmt) :=
  (Includer.ofReader reader call.rules).loadPage call.path

/-- How far a call has come. -/
inductive Stage where
  /-- It has not looked its page up. -/
  | asked
  /-- Its page was not in the cache. -/
  | missed
  /-- It has loaded its page. -/
  | loaded (body : List Stmt)
  | answered (result : Except PageFault (List Stmt))

/-- What a call does next, where the cache may change. -/
inductive Step (reader : Reader) (call : PageCall) : Stage × PageCache → Stage × PageCache → Prop
  | hit {cache body} (found : cache.get? call.path call.rules = some body) :
    Step reader call (.asked, cache) (.answered (.ok body), cache)
  | miss {cache} (absent : cache.get? call.path call.rules = none) :
    Step reader call (.asked, cache) (.missed, cache)
  | fail {cache fault} (fails : call.uncached reader = .error fault) :
    Step reader call (.missed, cache) (.answered (.error fault), cache)
  | load {cache body} (loads : call.uncached reader = .ok body) :
    Step reader call (.missed, cache) (.loaded body, cache)
  | keep {cache body} :
    Step reader call (.loaded body, cache)
      (.answered (.ok body), cache.insert call.path call.rules body)

/-- A result is what a call gets without a cache or, where its path cannot be read as it is spelled,
the page under another spelling. -/
def IsAnswer (reader : Reader) (call : PageCall) (result : Except PageFault (List Stmt)) : Prop :=
  result = call.uncached reader ∨
    ∃ fault spelling body, call.uncached reader = .error (.unreadable call.path fault) ∧
      spelling.isSame call.path = true ∧ uncached reader ⟨spelling, call.rules⟩ = .ok body ∧
      result = .ok body

/-- What holds of a call at a stage of it. -/
def IsSound (reader : Reader) (call : PageCall) : Stage → Prop
  | .asked | .missed => True
  | .loaded body => call.uncached reader = .ok body
  | .answered result => call.IsAnswer reader result

variable {reader : Reader} {call : PageCall} {stage stage' : Stage} {cache cache' : PageCache}

/-- A path that cannot be read is what an uncached call stops at. -/
theorem uncached_of_read {fault : ReadFault} (h : reader.read call.path = .error fault) :
    call.uncached reader = .error (.unreadable call.path fault) := by
  simp only [uncached, Includer.loadPage, Includer.ofReader, h]
  rfl

/-- A page in the cache is an answer. -/
theorem isAnswer_of_get? (steady : reader.IsSteady) (faithful : cache.IsFaithful reader)
    {body : List Stmt} (found : cache.get? call.path call.rules = some body) :
    call.IsAnswer reader (.ok body) := by
  obtain ⟨e, he, rfl⟩ := Option.map_eq_some_iff.mp found
  have isFor := List.find?_some he
  simp only [CacheEntry.isFor, Bool.and_eq_true] at isFor
  obtain ⟨path, rules⟩ := isFor
  have loads : uncached reader ⟨e.path, call.rules⟩ = .ok e.body := by
    rw [uncached, ← Includer.ofReader_congr reader rules]
    exact faithful e (List.mem_of_find?_eq_some he)
  cases read : reader.read call.path with
  | ok text => exact .inl (Includer.loadPage_of_isSame steady path read loads).symm
  | error fault =>
    exact .inr ⟨fault, e.path, e.body, uncached_of_read read, path, loads, rfl⟩

/-- A step of a call keeps the cache faithful, and what the call comes to is sound. -/
theorem Step.isSound (step : call.Step reader (stage, cache) (stage', cache'))
    (steady : reader.IsSteady) (faithful : cache.IsFaithful reader)
    (sound : call.IsSound reader stage) :
    cache'.IsFaithful reader ∧ call.IsSound reader stage' := by
  cases step with
  | hit found => exact ⟨faithful, isAnswer_of_get? steady faithful found⟩
  | miss => exact ⟨faithful, trivial⟩
  | fail fails => exact ⟨faithful, .inl fails.symm⟩
  | load loads => exact ⟨faithful, loads⟩
  | keep =>
    refine ⟨fun e he => ?_, .inl sound.symm⟩
    obtain rfl | he := List.mem_cons.mp he
    · exact sound
    · exact faithful e (List.mem_filter.mp he).1

theorem isSound_of_steps {entry entry' : Stage × PageCache}
    (steps : ReflTransGen (call.Step reader) entry entry') (steady : reader.IsSteady)
    (faithful : entry.2.IsFaithful reader) (sound : call.IsSound reader entry.1) :
    entry'.2.IsFaithful reader ∧ call.IsSound reader entry'.1 := by
  induction steps with
  | refl => exact ⟨faithful, sound⟩
  | tail _ step ih => exact step.isSound steady ih.1 ih.2

/-- A call that takes its steps without the others coming between does what `PageCache.load` does. -/
theorem steps_load (reader : Reader) (call : PageCall) (cache : PageCache) :
    ReflTransGen (call.Step reader) (.asked, cache)
      (.answered (cache.load reader call.rules call.path).1,
        (cache.load reader call.rules call.path).2) := by
  rw [PageCache.load]
  split
  · exact .single (.hit ‹_›)
  · have missed : ReflTransGen (call.Step reader) (.asked, cache) (.missed, cache) :=
      .single (.miss ‹_›)
    split
    · exact (missed.tail (.load ‹_›)).tail .keep
    · exact missed.tail (.fail ‹_›)

/-- What is loaded through a faithful cache is an answer, and leaves the cache faithful. -/
theorem isAnswer_load (steady : reader.IsSteady) (faithful : cache.IsFaithful reader) (call : PageCall) :
    (cache.load reader call.rules call.path).2.IsFaithful reader ∧
      call.IsAnswer reader (cache.load reader call.rules call.path).1 :=
  isSound_of_steps (steps_load reader call cache) steady faithful trivial

/-- A call can be answered at each stage. -/
theorem exists_answered (reader : Reader) (call : PageCall) (stage : Stage) (cache : PageCache) :
    ∃ result cache', ReflTransGen (call.Step reader) (stage, cache) (.answered result, cache') := by
  cases stage with
  | asked => exact ⟨_, _, steps_load reader call cache⟩
  | missed =>
    cases result : call.uncached reader with
    | ok body => exact ⟨_, _, .tail (.single (.load result)) .keep⟩
    | error fault => exact ⟨_, _, .single (.fail result)⟩
  | loaded body => exact ⟨_, _, .single .keep⟩
  | answered result => exact ⟨_, _, .refl⟩

end PageCall

/-- A cache and the calls made of it so far. -/
structure SharedCache where
  cache : PageCache
  calls : List (PageCall × PageCall.Stage)

namespace SharedCache

/-- The cache without pages, before any call. -/
def empty : SharedCache := ⟨.empty, []⟩

/-- What can happen next: a caller asks for a page, one of the calls takes a step, or pages are
dropped. -/
inductive Step (reader : Reader) : SharedCache → SharedCache → Prop
  | ask {cache calls} (call : PageCall) :
    Step reader ⟨cache, calls⟩ ⟨cache, calls ++ [(call, .asked)]⟩
  | proceed {cache cache' call stage stage'} (before after : List (PageCall × PageCall.Stage))
    (step : call.Step reader (stage, cache) (stage', cache')) :
    Step reader ⟨cache, before ++ (call, stage) :: after⟩ ⟨cache', before ++ (call, stage') :: after⟩
  | invalidate {cache calls} (path : Path) :
    Step reader ⟨cache, calls⟩ ⟨cache.invalidate path, calls⟩
  | clear {cache calls} : Step reader ⟨cache, calls⟩ ⟨.empty, calls⟩

/-- The cache is faithful, and so are the calls made of it. -/
structure IsSound (s : SharedCache) (reader : Reader) : Prop where
  cache : s.cache.IsFaithful reader
  calls : ∀ entry ∈ s.calls, entry.1.IsSound reader entry.2

variable {reader : Reader} {s s' : SharedCache}

theorem isSound_empty : empty.IsSound reader := ⟨PageCache.isFaithful_empty reader, nofun⟩

theorem Step.isSound (step : Step reader s s') (steady : reader.IsSteady) (sound : s.IsSound reader) :
    s'.IsSound reader := by
  cases step with
  | ask call =>
    refine ⟨sound.cache, fun entry hentry => ?_⟩
    obtain hentry | hentry := List.mem_append.mp hentry
    · exact sound.calls entry hentry
    · rw [List.mem_singleton.mp hentry]
      trivial
  | @proceed cache cache' call stage stage' before after step =>
    obtain ⟨faithful, next⟩ := step.isSound steady sound.cache
      (sound.calls (call, stage) (List.mem_append_right _ List.mem_cons_self))
    refine ⟨faithful, fun entry hentry => ?_⟩
    obtain hentry | hentry := List.mem_append.mp hentry
    · exact sound.calls entry (List.mem_append_left _ hentry)
    · obtain rfl | hentry := List.mem_cons.mp hentry
      · exact next
      · exact sound.calls entry (List.mem_append_right _ (List.mem_cons_of_mem _ hentry))
  | invalidate path => exact ⟨fun e he => sound.cache e (List.mem_filter.mp he).1, sound.calls⟩
  | clear => exact ⟨PageCache.isFaithful_empty reader, sound.calls⟩

theorem isSound_of_run (steady : reader.IsSteady) (run : ReflTransGen (Step reader) empty s) :
    s.IsSound reader := by
  induction run with
  | refl => exact isSound_empty
  | tail _ step ih => exact step.isSound steady ih

/-- A call that takes its steps before anything else happens, as the first one that is made. -/
theorem run_of_steps {call : PageCall} {stage : PageCall.Stage} {cache : PageCache}
    (steps : ReflTransGen (call.Step reader) (.asked, .empty) (stage, cache)) :
    ReflTransGen (Step reader) empty ⟨cache, [(call, stage)]⟩ := by
  have proceed : ∀ {next : PageCall.Stage × PageCache},
      ReflTransGen (call.Step reader) (.asked, .empty) next →
        ReflTransGen (Step reader) ⟨.empty, [(call, .asked)]⟩ ⟨next.2, [(call, next.1)]⟩ := by
    intro next steps
    induction steps with
    | refl => exact .refl
    | tail _ step ih => exact ih.tail (.proceed [] [] step)
  exact .head (.ask call) (proceed steps)

/-- Files of which one is a page that says `hi`. -/
def greeting : Files := ⟨[(["page.asp".toList], .file "hi".toUTF8)]⟩

/-- The page is called by its path, then with a slash behind it. -/
theorem exists_run_greeting : ∃ body s, ReflTransGen (Step greeting.reader) empty s ∧
    (⟨⟨"page.asp/"⟩, Configuration.standard.loadRules⟩, .answered (.ok body)) ∈ s.calls := by
  let call : PageCall := ⟨⟨"page.asp"⟩, Configuration.standard.loadRules⟩
  let spelled : PageCall := ⟨⟨"page.asp/"⟩, Configuration.standard.loadRules⟩
  obtain ⟨body, loads⟩ : ∃ body, call.uncached greeting.reader = .ok body := by
    have ok : (call.uncached greeting.reader).isOk = true := by decide +kernel
    cases h : call.uncached greeting.reader with
    | ok body => exact ⟨body, rfl⟩
    | error fault => rw [h] at ok; nomatch ok
  have first : ReflTransGen (Step greeting.reader) empty
      ⟨PageCache.empty.insert call.path call.rules body, [(call, .answered (.ok body))]⟩ :=
    run_of_steps (((ReflTransGen.single (.miss rfl)).tail (.load loads)).tail .keep)
  have found := PageCache.get?_insert (show call.path.isSame spelled.path = true by decide) .empty call.rules body
  exact ⟨body, _, (first.tail (.ask spelled)).tail
    (.proceed [(call, .answered (.ok body))] [] (.hit found)), List.mem_cons_of_mem _ List.mem_cons_self⟩

/-- Not every run of a shared cache answers all calls as they are answered without one. -/
theorem exists_run_ne_uncached :
    ∃ (files : Files) (s : SharedCache) (call : PageCall) (result : Except PageFault (List Stmt)),
      ReflTransGen (Step files.reader) empty s ∧ (call, .answered result) ∈ s.calls ∧
        result ≠ call.uncached files.reader := by
  obtain ⟨body, s, run, answered⟩ := exists_run_greeting
  refine ⟨greeting, s, _, _, run, answered, ?_⟩
  have unreadable : greeting.reader.read ⟨"page.asp/"⟩ = .error .notDirectory := rfl
  rw [PageCall.uncached_of_read unreadable]
  nofun

/-- **A shared cache does not show while the files stay as they are**: whatever the callers do, every
page in the cache is one that loads, every answered call got what it gets without a cache or the page
under a spelling of its path that can be read, and every other call can be answered. -/
theorem isAnswer_of_run (reader : Reader) (steady : reader.IsSteady) (s : SharedCache)
    (run : ReflTransGen (Step reader) empty s) :
    s.cache.IsFaithful reader ∧
      (∀ call result, (call, .answered result) ∈ s.calls → call.IsAnswer reader result) ∧
      ∀ call stage, (call, stage) ∈ s.calls → ∃ result cache,
        ReflTransGen (call.Step reader) (stage, s.cache) (.answered result, cache) := by
  have sound := isSound_of_run steady run
  exact ⟨sound.cache, fun call result => sound.calls (call, .answered result),
    fun call stage _ => call.exists_answered reader stage s.cache⟩

/-- Files in memory are read alike under each spelling, so what a slash is added to is answered by
the page without it. -/
theorem isAnswer_of_run_greeting : greeting.reader.IsSteady ∧ ∃ body s,
    ReflTransGen (Step greeting.reader) empty s ∧ s.cache.IsFaithful greeting.reader ∧
      PageCall.IsAnswer greeting.reader ⟨⟨"page.asp/"⟩, Configuration.standard.loadRules⟩ (.ok body) := by
  have steady := greeting.isSteady_reader
  obtain ⟨body, s, run, answered⟩ := exists_run_greeting
  have answers := isAnswer_of_run greeting.reader steady s run
  exact ⟨steady, body, s, run, answers.1, answers.2.1 _ _ answered⟩

end SharedCache

end PageScript
