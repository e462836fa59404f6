import PageScript.Command.Options
import PageScript.Site.Page
import PageScript.Syntax.Stmt.Display

/-!
# Command/Basic — the commands and what they print

`Command.ofArgs` reads a command line and `Command.perform` carries it out.  What a page wrote
before it stopped is printed in any case; the complaint follows.
-/

namespace PageScript

/-- A command line. -/
inductive Command where
  | help
  | version
  /-- Renders a page. -/
  | run (file : Path) (options : RunArguments)
  /-- Prints the statements of a file. -/
  | parse (file : Path)
  /-- Prints the tokens of a file. -/
  | lex (file : Path)
  /-- A command without its file; the usage line says what it needs. -/
  | incomplete (usage : String)
  | badOption (fault : OptionFault)
  | unknown (name : String)

/-- What a command says on the error channel. -/
inductive Complaint where
  | none
  | text (lines : String)
  /-- A file that is no program; it is shown with the place marked. -/
  | report (fault : PageFault)

/-- What a command does. -/
structure CommandResult where
  code : Nat
  output : String
  complaint : Complaint

namespace Command

/-- The version that the `version` command prints. -/
def versionText : String := "0.1.0-alpha.1"

/-- The text that the `help` command prints. -/
def helpLines : List String := [
  "vbs - classic ASP page runner",
  "",
  "Usage: vbs <command> [options]",
  "",
  "Commands:",
  "  run <file>        Render a page and print its output",
  "  parse <file>      Parse and print the statement tree",
  "  lex <file>        Tokenize and print tokens",
  "  help              Show this help message",
  "  version           Show version information",
  "",
  "Run options:",
  "  --root <dir>        Document root for virtual includes (default: page directory)",
  "  --query key=value   Add a Request.QueryString parameter (repeatable)",
  "  --explicit          Start the page with Option Explicit on",
  "  --headers           Print headers added with Response.AddHeader",
  "",
  "Environment:",
  "  RUST_LOG            Log filter, e.g. vbs_eval=debug",
  "  VBS_LOG_TREE        Print logs as an indented tree",
  "",
  "Examples:",
  "  vbs run site/index.asp --query id=7",
  "  vbs parse lib/util.vbs"]

/-- Lines, each with its end. -/
def ofLines (lines : List String) : String := String.join (lines.map (· ++ "\n"))

/-- The help text. -/
def helpText : String := ofLines helpLines

/-- Reads a command line.  Without any argument it asks for help. -/
def ofArgs : List String → Command
  | [] => help
  | "run" :: args =>
    match RunArguments.ofArgs args with
    | .error fault => badOption fault
    | .ok options =>
      match options.file with
      | some file => run file options
      | none => incomplete "vbs run <file> [options]"
  | ["parse"] => incomplete "vbs parse <file>"
  | "parse" :: file :: _ => parse ⟨file⟩
  | ["lex"] => incomplete "vbs lex <file>"
  | "lex" :: file :: _ => lex ⟨file⟩
  | "help" :: _ | "--help" :: _ | "-h" :: _ => help
  | "version" :: _ | "--version" :: _ | "-V" :: _ => version
  | name :: _ => unknown name

/-- What a command says about a fault. -/
def complaintOf (fault : PageFault) : Complaint :=
  match fault with
  | .badSource .. => .report fault
  | fault => .text ("error: " ++ fault.message ++ "\n")

/-- Prints something about the text of a file. -/
def inspect (reader : Reader) (file : Path) (print : Region → String → CommandResult) :
    CommandResult :=
  match reader.read file with
  | .error fault => ⟨1, "", complaintOf (.unreadable file fault)⟩
  | .ok source =>
    print (if Configuration.standard.isMarkup file then .markup else .code) source

/-- Prints the tokens of a source. -/
def showTokens (file : Path) (region : Region) (source : String) : CommandResult :=
  let tokens := tokensOf region source
  let heading :=
    "Tokens for '" ++ file.text ++ "' (" ++ toString tokens.length ++ " tokens):"
  ⟨0, ofLines (heading :: tokens.map fun t => "  " ++ t.line), .none⟩

/-- Prints the statements of a source. -/
def showStatements (file : Path) (region : Region) (source : String) : CommandResult :=
  match readProgram file region source with
  | .error fault => ⟨1, "", complaintOf fault⟩
  | .ok body =>
    let heading :=
      "Parse result for '" ++ file.text ++ "' (" ++ toString body.length ++ " statements):"
    ⟨0, ofLines (heading :: body.map fun stmt => "  " ++ stmt.display), .none⟩

/-- The configuration of a run.  Virtual includes count from the directory of the page unless a
root is given. -/
def configuration (file : Path) (options : RunArguments) : Configuration :=
  { Configuration.standard with
    root := (options.root.or file.parent?).getD Configuration.standard.root
    explicit := options.explicit }

/-- The headers, a line each, and an empty line behind them. -/
def headerLines (response : Response) : String :=
  ofLines (response.headers.map (fun (name, value) => name ++ ": " ++ value) ++ [""])

/-- Renders a page and prints what it wrote. -/
def render (reader : Reader) (elapsed : Float) (file : Path) (options : RunArguments) :
    CommandResult :=
  let world := World.new { Request.ofQuery options.query with elapsed := elapsed }
  let (host, store) := Host.standard world.store
  let (result, _, world) :=
    renderAt .empty reader host (configuration file options) file { world with store := store }
  let headers := if options.headers then headerLines world.response else ""
  let output := headers ++ world.response.body
  match result with
  | .ok () => ⟨0, output, .none⟩
  | .error fault => ⟨1, output, complaintOf fault⟩

/-- Carries a command out.  `elapsed` is the time that pages see, in milliseconds. -/
def perform (command : Command) (reader : Reader) (elapsed : Float) : CommandResult :=
  match command with
  | help => ⟨0, helpText, .none⟩
  | version => ⟨0, ofLines ["vbs " ++ versionText], .none⟩
  | run file options => render reader elapsed file options
  | parse file => inspect reader file (showStatements file)
  | lex file => inspect reader file (showTokens file)
  | incomplete usage => ⟨1, "", .text ("Usage: " ++ usage ++ "\n")⟩
  | badOption fault => ⟨1, "", .text ("error: " ++ fault.message ++ "\n")⟩
  | unknown name => ⟨1, helpText, .text ("Unknown command: " ++ name ++ "\n\n")⟩

/-- The fault that keeps the files of a command from being loaded, if there is one. -/
def loadFault? (command : Command) (reader : Reader) : Option PageFault :=
  let loading (rules : LoadRules) (file : Path) : Option PageFault :=
    match (Includer.ofReader reader rules).loadPage file with
    | .ok _ => Option.none
    | .error fault => some fault
  match command with
  | run file options => loading (configuration file options).loadRules file
  | parse file | lex file =>
    match reader.read file with
    | .ok _ => Option.none
    | .error fault => some (.unreadable file fault)
  | _ => Option.none

end Command

end PageScript
