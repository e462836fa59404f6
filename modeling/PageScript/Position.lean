import PageScript.Span

/-!
# Position — lines and columns

A place in a source is a byte offset; people read lines and columns.  Lines start at the beginning
and behind every line feed.  Lines and columns count from one, columns in characters, and are held in
32 bits, in which behind the largest number comes zero.  The line of an offset is found by halving the
row of line starts.
-/

namespace PageScript

/-- A line and a column, both counted from one. -/
structure Position where
  line : Nat
  column : Nat
deriving DecidableEq

/-- The sum of two numbers of 32 bits, in 32 bits. -/
def wrappingAdd (a b : Nat) : Nat := (a + b) % (Span.limit + 1)

/-- A count from zero as a number from one.  A count that 32 bits cannot hold is cut down first, so
that its number fits; the number of the largest count that they do hold does not fit. -/
def ordinal (count : Nat) : Nat :=
  wrappingAdd (if count ≤ Span.limit then count else Span.limit - 1) 1

/-- The count from zero that a number from one belongs to. -/
def countOf (number : Nat) : Nat := wrappingAdd number Span.limit

/-! ## Searching a row of numbers -/

/-- What the search for a number in a sorted row comes to. -/
inductive Sought where
  /-- The number stands at an index. -/
  | found (index : Nat)
  /-- The number is not there and belongs in front of what stands at an index. -/
  | missing (index : Nat)
deriving DecidableEq

namespace Sought

/-- Halves the `size` places of a row from `base` on until one is left.  The second half is kept
unless it starts with a greater number. -/
def narrow (row : Array Nat) (number base size : Nat) : Nat :=
  if 1 < size then
    let half := size / 2
    if number < row.getD (base + half) 0 then narrow row number base (size - half)
    else narrow row number (base + half) (size - half)
  else base
termination_by size
decreasing_by all_goals omega

/-- Searches a sorted row for a number. -/
def search (row : Array Nat) (number : Nat) : Sought :=
  if row.isEmpty then .missing 0
  else
    let base := narrow row number 0 row.size
    let here := row.getD base 0
    if here = number then .found base
    else if here < number then .missing (base + 1)
    else .missing base

end Sought

/-! ## The lines of a source -/

/-- The byte offsets at which the lines of a text start that itself starts at an offset, except
the first line. -/
def laterLineStarts (offset : Nat) : List Char → List Nat
  | [] => []
  | c :: rest =>
    let next := offset + c.utf8Size
    if c = '\n' then min next Span.limit :: laterLineStarts next rest
    else laterLineStarts next rest

/-- The lines of one source. -/
structure LineTable where
  /-- The byte offset at which each line starts, in order. -/
  starts : Array Nat

namespace LineTable

/-- The table of a source. -/
def ofSource (source : String) : LineTable := ⟨(0 :: laterLineStarts 0 source.toList).toArray⟩

/-- The number of lines. -/
def size (t : LineTable) : Nat := t.starts.size

/-- The index of the line that an offset is on: an offset between two line starts is on the line of
the first one. -/
def indexAt (t : LineTable) (offset : Nat) : Nat :=
  match Sought.search t.starts offset with
  | .found index => index
  | .missing index => index - 1

/-- The line that an offset is on. -/
def lineAt (t : LineTable) (offset : Nat) : Nat := ordinal (t.indexAt offset)

/-- The offset at which a line starts. -/
def lineStart (t : LineTable) (line : Nat) : Nat := t.starts.getD (countOf line) 0

end LineTable

/-- The characters behind a number of bytes, if that many bytes end between two characters. -/
def dropBytes? : List Char → Nat → Option (List Char)
  | chars, 0 => some chars
  | [], _ + 1 => none
  | c :: rest, bytes + 1 =>
    if c.utf8Size ≤ bytes + 1 then dropBytes? rest (bytes + 1 - c.utf8Size) else none

/-- The number of characters in the byte range `start..stop`, if both ends are between two
characters. -/
def charsBetween? (chars : List Char) (start stop : Nat) : Option Nat := do
  if start ≤ stop then
    let behind ← dropBytes? chars start
    let after ← dropBytes? behind (stop - start)
    some (behind.length - after.length)
  else none

/-- The position of a byte offset in a source.  An offset behind the end counts as the end, and one
inside a character has column one. -/
def LineTable.positionAt (t : LineTable) (source : String) (offset : Nat) : Position :=
  let line := t.lineAt offset
  let stop := min offset source.utf8ByteSize
  ⟨line, ordinal ((charsBetween? source.toList (t.lineStart line) stop).getD 0)⟩

/-- The position of a byte offset in a source. -/
def positionIn (source : String) (offset : Nat) : Position :=
  (LineTable.ofSource source).positionAt source offset

end PageScript
