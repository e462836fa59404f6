import PageScript.Command.Basic

/-!
# Main — the command line

The commands are functions of the texts of files.  The program looks up which file a command still
lacks, reads it, and starts over until the command lacks none.
-/

namespace PageScript.Main

/-- The fault that a failed read reports. -/
def readFault : IO.Error → ReadFault
  | .noFileOrDirectory .. => .notFound
  | .inappropriateType _ code _ =>
    if code == 21 then .isDirectory else .notDirectory
  | error => .other (toString error)

/-- Reads a file as text. -/
def readText (path : Path) : IO (Except ReadFault String) := do
  match ← (IO.FS.readBinFile path.text).toBaseIO with
  | .error error => pure (.error (readFault error))
  | .ok bytes => pure ((String.fromUTF8? bytes).elim (.error .notText) .ok)

/-- Reads from the files that have been read. -/
def readerOf (known : List (Path × Except ReadFault String)) : Reader where
  read := fun path => (known.lookup path).getD (.error .notFound)
  size := known.length

/-- Reads the files that a command needs. -/
partial def gather (command : Command) (known : List (Path × Except ReadFault String)) :
    IO (List (Path × Except ReadFault String)) := do
  match command.loadFault? (readerOf known) with
  | some (.unreadable path _) =>
    if (known.lookup path).isSome then pure known
    else
      let text ← readText path
      gather command ((path, text) :: known)
  | _ => pure known

end PageScript.Main

open PageScript PageScript.Main in
/-- Carries out the command in the arguments. -/
def main (args : List String) : IO UInt32 := do
  let started ← IO.monoNanosNow
  let command := Command.ofArgs args
  let known ← gather command []
  let now ← IO.monoNanosNow
  let result := command.perform (readerOf known) ((now - started).toFloat / 1000000)
  IO.print result.output
  match result.complaint with
  | .none => pure ()
  | .text lines => IO.eprint lines
  | .report fault => IO.eprintln ("error: " ++ fault.message)
  pure result.code.toUInt32
