/-!
# Site/Path — paths, their components and their normal form

A path is kept as it was written, because messages show it that way; what it denotes is its list of
components.  Between slashes empty parts count for nothing, and so does `.` except at the front of a
relative path.  `Path.normalize` resolves `..` as well: it writes the same file reached along
different routes in one way.
-/

namespace PageScript

/-- A path as written. -/
structure Path where
  text : String
deriving DecidableEq, Inhabited

/-- A part of a path. -/
inductive Path.Component where
  /-- The slash at the front of an absolute path. -/
  | root
  /-- A `.` at the front of a relative path. -/
  | here
  /-- A `..`. -/
  | up
  | name (chars : List Char)
deriving DecidableEq

namespace Path

/-- The parts of a text between its slashes, at least one. -/
def pieces : List Char → List (List Char)
  | [] => [[]]
  | c :: rest =>
    if c = '/' then [] :: pieces rest
    else
      match pieces rest with
      | [] => [[c]]
      | piece :: further => (c :: piece) :: further

/-- The component that a part of a path stands for, if any. -/
def Component.ofPiece? (piece : List Char) : Option Component :=
  if piece = [] ∨ piece = ['.'] then none
  else if piece = ['.', '.'] then some .up
  else some (.name piece)

/-- The components of a path. -/
def components (p : Path) : List Component :=
  let chars := p.text.toList
  let parts := pieces chars
  let front :=
    if chars.head? = some '/' then [Component.root]
    else if parts.head? = some ['.'] then [Component.here]
    else []
  front ++ parts.filterMap Component.ofPiece?

/-- Whether two paths have the same components. -/
def isSame (p q : Path) : Bool := p.components = q.components

/-- A component as it is written. -/
def Component.chars : Component → List Char
  | root => []
  | here => ['.']
  | up => ['.', '.']
  | name chars => chars

/-- Components with a slash between any two. -/
def joined : List Component → List Char
  | [] => []
  | [c] => c.chars
  | c :: d :: rest => c.chars ++ '/' :: joined (d :: rest)

/-- The path with certain components. -/
def ofComponents (cs : List Component) : Path :=
  match cs with
  | [.root] => ⟨"/"⟩
  | cs => ⟨String.ofList (joined cs)⟩

/-- Whether a path starts at the root. -/
def isAbsolute (p : Path) : Bool := p.text.toList.head? = some '/'

/-- A path read from a directory: an absolute path stands for itself. -/
def join (base p : Path) : Path :=
  if p.isAbsolute then p
  else
    match base.text.toList.getLast? with
    | none => p
    | some '/' => ⟨base.text ++ p.text⟩
    | some _ => ⟨base.text ++ "/" ++ p.text⟩

/-- The directory that a path is in; a root and an empty path are in none. -/
def parent? (p : Path) : Option Path :=
  match p.components.getLast? with
  | none | some .root => none
  | some _ => some (ofComponents p.components.dropLast)

/-- The components read so far, the last first, with one more: `..` takes away a name, and at the
root nothing. -/
def climb (stack : List Component) (c : Component) : List Component :=
  match c, stack with
  | .here, stack => stack
  | .up, .name _ :: rest => rest
  | .up, .root :: rest => .root :: rest
  | c, stack => c :: stack

/-- The components without `.`, and with `..` only at the front of a relative path. -/
def resolved (cs : List Component) : List Component := (cs.foldl climb []).reverse

/-- The path in its normal form. -/
def normalize (p : Path) : Path := ofComponents (resolved p.components)

/-- The extension of a name: what is behind its last dot, if anything is in front of it. -/
def extensionOf? (name : List Char) : Option (List Char) :=
  let extension := (name.reverse.takeWhile (· ≠ '.')).reverse
  if extension.length + 1 < name.length then some extension else none

/-- The extension of the file that a path denotes. -/
def extension? (p : Path) : Option String :=
  match p.components.getLast? with
  | some (.name chars) => (extensionOf? chars).map String.ofList
  | _ => none

end Path

end PageScript
