import PageScript.Machine.State
import PageScript.Site.Path
import PageScript.Token.Basic

/-!
# Site/Settings — how pages are loaded and run

`LoadRules` is the part of a configuration that the tree of a page depends on: two configurations
that agree on it load every page alike.
-/

namespace PageScript

/-- What the loading of a page depends on. -/
structure LoadRules where
  /-- The directory that virtual includes count from. -/
  root : Path
  /-- The extensions of files that start in literal text, in lower case. -/
  extensions : List String

namespace LoadRules

/-- Whether two sets of rules load alike: by the same root and the same extensions in the same
order. -/
def isSame (a b : LoadRules) : Bool := a.root.isSame b.root && a.extensions == b.extensions

/-- Whether a file starts in literal text. -/
def isMarkup (s : LoadRules) (path : Path) : Bool :=
  match path.extension? with
  | some extension => s.extensions.any (agreesUpToCase · extension)
  | none => false

end LoadRules

/-- How pages are loaded and run. -/
structure Configuration where
  /-- The directory that virtual includes count from. -/
  root : Path
  /-- The extensions of files that start in literal text. -/
  extensions : List String
  /-- Whether names have to be declared from the start of a page. -/
  explicit : Bool
  /-- The largest number of nested calls. -/
  limit : Nat

namespace Configuration

/-- The configuration unless something else is set. -/
def standard : Configuration := ⟨⟨"."⟩, ["asp"], false, State.defaultLimit⟩

instance : Inhabited Configuration := ⟨standard⟩

/-- The part of the configuration that loading depends on. -/
def loadRules (c : Configuration) : LoadRules := ⟨c.root, c.extensions.map foldCase⟩

/-- Whether a file starts in literal text. -/
def isMarkup (c : Configuration) (path : Path) : Bool := c.loadRules.isMarkup path

/-- Whether two configurations are the same. -/
def isSame (a b : Configuration) : Bool :=
  a.root.isSame b.root && a.extensions == b.extensions && a.explicit == b.explicit
    && a.limit == b.limit

end Configuration

end PageScript
