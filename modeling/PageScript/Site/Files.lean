import PageScript.Site.Path

/-!
# Site/Files — reading files

A `Reader` gives the text of a file by its path, or says why there is none.  `Files` is a tree of
files and directories held in memory; it is read as a file system reads: part by part, where every
part but the last has to be a directory that is there.
-/

namespace PageScript

/-- Why a file cannot be read. -/
inductive ReadFault where
  | notFound
  /-- A part of the path is used as a directory and is none. -/
  | notDirectory
  | isDirectory
  | nameTooLong
  /-- The path holds a character that no path can hold. -/
  | badPath
  /-- The bytes of the file are not UTF-8. -/
  | notText
  | other (message : String)
deriving DecidableEq

/-- The message of a failed read. -/
def ReadFault.message : ReadFault → String
  | notFound => "No such file or directory (os error 2)"
  | notDirectory => "Not a directory (os error 20)"
  | isDirectory => "Is a directory (os error 21)"
  | nameTooLong => "File name too long (os error 36)"
  | badPath => "file name contained an unexpected NUL byte"
  | notText => "stream did not contain valid UTF-8"
  | other message => message

/-- Reads files by their paths. -/
structure Reader where
  read : Path → Except ReadFault String
  /-- How many normalized paths can be read, at most. -/
  size : Nat

/-- What stands at a place in a tree of files. -/
inductive FileNode where
  | directory
  | file (content : ByteArray)

/-- A tree of files: what stands at each place, under the names that lead there. -/
structure Files where
  entries : List (List (List Char) × FileNode)

namespace Files

/-- The tree without files. -/
def empty : Files := ⟨[]⟩

instance : Inhabited Files := ⟨empty⟩

/-- What stands at a place.  The top is a directory. -/
def nodeAt? (fs : Files) (place : List (List Char)) : Option FileNode :=
  if place.isEmpty then some .directory else fs.entries.lookup place

/-- The tree with something put at a place, in place of what stood there. -/
def put (fs : Files) (place : List (List Char)) (node : FileNode) : Files :=
  ⟨(place, node) :: fs.entries.filter fun entry => entry.1 ≠ place⟩

/-- The tree with directories made at all places above a place. -/
def makeParents (fs : Files) (place : List (List Char)) : Files :=
  (List.range place.length).foldl
    (fun fs n =>
      let above := place.take n
      if (fs.nodeAt? above).isSome then fs else fs.put above .directory) fs

/-- The names that lead to the place of a path inside the tree. -/
def placeOf (p : Path) : List (List Char) :=
  (Path.resolved p.components).filterMap fun
    | .name chars => some chars
    | _ => none

/-- The tree with a file or a directory at a path, and directories above it. -/
def write (fs : Files) (p : Path) (node : FileNode) : Files :=
  let place := placeOf p
  (fs.makeParents place).put place node

/-- The tree without the file at a path. -/
def remove (fs : Files) (p : Path) : Files :=
  ⟨fs.entries.filter fun entry => entry.1 ≠ placeOf p⟩

/-- Follows the parts of a path from a directory.  `none` stands for a directory outside the tree,
in which nothing is known. -/
def walk (fs : Files) : Option (List (List Char)) → List (List Char) → Except ReadFault FileNode
  | some place, [] =>
    match fs.nodeAt? place with
    | some node => .ok node
    | none => .error .notFound
  | none, [] => .ok .directory
  | place, piece :: rest =>
    if piece = [] ∨ piece = ['.'] then
      match place.bind fs.nodeAt? with
      | some (.file _) => .error .notDirectory
      | _ => fs.walk place rest
    else
      match place with
      | none => if piece = ['.', '.'] then fs.walk none rest else .error .notFound
      | some names =>
        match fs.nodeAt? names with
        | none => .error .notFound
        | some (.file _) => .error .notDirectory
        | some .directory =>
          if piece = ['.', '.'] then
            fs.walk (if names.isEmpty then none else some names.dropLast) rest
          else if (String.ofList piece).utf8ByteSize > 255 then .error .nameTooLong
          else if (fs.nodeAt? (names ++ [piece])).isNone then .error .notFound
          else fs.walk (some (names ++ [piece])) rest

/-- The text at a path. -/
def read (fs : Files) (p : Path) : Except ReadFault String :=
  if p.text.isEmpty then .error .notFound
  else if p.text.toList.contains '\x00' then .error .badPath
  else if p.text.utf8ByteSize > 4095 then .error .nameTooLong
  else
    match fs.walk (if p.isAbsolute then none else some []) (Path.pieces p.text.toList) with
    | .error fault => .error fault
    | .ok .directory => .error .isDirectory
    | .ok (.file content) =>
      match String.fromUTF8? content with
      | some text => .ok text
      | none => .error .notText

/-- Reads the files of the tree. -/
def reader (fs : Files) : Reader := ⟨fs.read, fs.entries.length⟩

end Files

end PageScript
