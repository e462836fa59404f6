import PageScript.Site.Include

/-!
# Site/Cache — keeping loaded pages

A cache holds the statements of loaded pages by path and load rules, so that one cache serves
configurations that load differently.  It never looks at the files again: whoever changes a file
invalidates its path.  Pages that fail to load are not kept.
-/

namespace PageScript

/-- A loaded page in a cache. -/
structure CacheEntry where
  path : Path
  rules : LoadRules
  body : List Stmt

/-- Whether an entry is for a path under some rules. -/
def CacheEntry.isFor (e : CacheEntry) (path : Path) (rules : LoadRules) : Bool :=
  e.path.isSame path && e.rules.isSame rules

/-- Loaded pages. -/
structure PageCache where
  entries : List CacheEntry

namespace PageCache

/-- The cache without pages. -/
def empty : PageCache := ⟨[]⟩

instance : Inhabited PageCache := ⟨empty⟩

/-- The page at a path as it was loaded under some rules. -/
def get? (c : PageCache) (path : Path) (rules : LoadRules) : Option (List Stmt) :=
  (c.entries.find? (·.isFor path rules)).map (·.body)

/-- The cache with a page, in place of an earlier one for the same path and rules. -/
def insert (c : PageCache) (path : Path) (rules : LoadRules) (body : List Stmt) : PageCache :=
  ⟨⟨path, rules, body⟩ :: c.entries.filter (!·.isFor path rules)⟩

/-- The cache without the pages at a path, under any rules. -/
def invalidate (c : PageCache) (path : Path) : PageCache :=
  ⟨c.entries.filter (!·.path.isSame path)⟩

/-- The number of pages. -/
def size (c : PageCache) : Nat := c.entries.length

/-- The page at a path under some rules: the one in the cache or, if there is none, a newly
loaded one, which the cache keeps from then on. -/
def load (c : PageCache) (reader : Reader) (rules : LoadRules) (path : Path) :
    Except PageFault (List Stmt) × PageCache :=
  match c.get? path rules with
  | some body => (.ok body, c)
  | none =>
    match (Includer.ofReader reader rules).loadPage path with
    | .ok body => (.ok body, c.insert path rules body)
    | .error fault => (.error fault, c)

end PageCache

end PageScript
