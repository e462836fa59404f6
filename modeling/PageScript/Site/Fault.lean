import PageScript.Position
import PageScript.Site.Files
import PageScript.Syntax.Cursor
import PageScript.Value.Fault

/-!
# Site/Fault — what keeps a page from being loaded or rendered
-/

namespace PageScript

/-- Why a page is not loaded or not rendered to its end. -/
inductive PageFault where
  /-- A file is no program. -/
  | badSource (file : Path) (position : Position) (error : SyntaxError)
  /-- A file cannot be read. -/
  | unreadable (path : Path) (fault : ReadFault)
  /-- A file includes itself, directly or through others; the chain starts with the page and ends
  with the file that is in it twice. -/
  | includeCycle (chain : List Path)
  /-- The page stopped while it ran. -/
  | runtime (fault : Fault)
  /-- The bound on the number of steps was reached. -/
  | exhausted

namespace PageFault

/-- The message of a fault. -/
def message : PageFault → String
  | badSource file position error =>
    file.text ++ ":" ++ toString position.line ++ ":" ++ toString position.column ++ ": "
      ++ error.message
  | unreadable path fault => "cannot read '" ++ path.text ++ "': " ++ fault.message
  | includeCycle chain => "include cycle: " ++ String.intercalate " -> " (chain.map Path.text)
  | runtime fault => "runtime error: " ++ fault.message
  | exhausted => "out of steps"

end PageFault

end PageScript
