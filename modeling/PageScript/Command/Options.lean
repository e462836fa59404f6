import PageScript.Site.Path

/-!
# Command/Options — the options of the `run` command

Options and the file may stand in any order.  The first argument that is wrong is reported.
-/

namespace PageScript

/-- The options of the `run` command. -/
structure RunArguments where
  file : Option Path
  /-- The directory that virtual includes count from. -/
  root : Option Path
  /-- The parameters of the request, in order. -/
  query : List (String × String)
  /-- Whether names have to be declared from the start of the page. -/
  explicit : Bool
  /-- Whether the headers are printed. -/
  headers : Bool
deriving DecidableEq

/-- What is wrong with the arguments of the `run` command. -/
inductive OptionFault where
  | missingValue (option : String)
  | notKeyed (found : String)
  | unknown (option : String)
  | unexpected (argument : String)
deriving DecidableEq

/-- The message of a wrong argument. -/
def OptionFault.message : OptionFault → String
  | missingValue option => "missing value for " ++ option
  | notKeyed found => "expected key=value after --query, found '" ++ found ++ "'"
  | unknown option => "unknown option '" ++ option ++ "'"
  | unexpected argument => "unexpected argument '" ++ argument ++ "'"

/-- A text of the form `key=value` taken apart at its first equals sign. -/
def keyValue? (text : String) : Option (String × String) :=
  let chars := text.toList
  let key := chars.takeWhile (· ≠ '=')
  match chars.dropWhile (· ≠ '=') with
  | [] => none
  | _ :: value => some (String.ofList key, String.ofList value)

namespace RunArguments

/-- No option at all. -/
def empty : RunArguments := ⟨none, none, [], false, false⟩

instance : Inhabited RunArguments := ⟨empty⟩

/-- Reads arguments behind options that are read already. -/
def readArgs (options : RunArguments) : List String → Except OptionFault RunArguments
  | [] => .ok options
  | ["--root"] => .error (.missingValue "--root")
  | ["--query"] => .error (.missingValue "--query")
  | "--root" :: root :: rest => readArgs { options with root := some ⟨root⟩ } rest
  | "--query" :: parameter :: rest =>
    match keyValue? parameter with
    | some pair => readArgs { options with query := options.query ++ [pair] } rest
    | none => .error (.notKeyed parameter)
  | "--explicit" :: rest => readArgs { options with explicit := true } rest
  | "--headers" :: rest => readArgs { options with headers := true } rest
  | arg :: rest =>
    if arg.toList.head? = some '-' then .error (.unknown arg)
    else if options.file.isNone then readArgs { options with file := some ⟨arg⟩ } rest
    else .error (.unexpected arg)

/-- Reads the arguments of the `run` command. -/
def ofArgs (args : List String) : Except OptionFault RunArguments := readArgs empty args

end RunArguments

end PageScript
