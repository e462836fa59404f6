import PageScript.Site.Fault
import PageScript.Site.Settings
import PageScript.Syntax.Stmt.Parser

/-!
# Site/Include — attaching the files that a page includes

Every include directive of a page, at any depth, gets the statements of its file attached, in which
the same is done.  An `Includer` says where a directive leads and what the file there holds.  The
files being expanded form a chain, and a file that is in it already is not expanded again: it
includes itself.
-/

namespace PageScript

/-! ## Where a directive leads -/

/-- The path of an include directive that stands in the file `source`.  Virtual paths count from
the root whatever slashes are in front of them, other paths from the directory of the file.  A
backslash separates like a slash. -/
def Include.target (root source : Path) (i : Include) : Path :=
  let written := i.path.toList.map fun c => if c = '\\' then '/' else c
  if i.isVirtual then (root.join ⟨String.ofList (written.dropWhile (· = '/'))⟩).normalize
  else ((source.parent?.getD ⟨""⟩).join ⟨String.ofList written⟩).normalize

/-- The statements of a source that was read from a path. -/
def readProgram (path : Path) (region : Region) (source : String) :
    Except PageFault (List Stmt) :=
  match programOf? region source with
  | .ok body => .ok body
  | .error e => .error (.badSource path (positionIn source e.span.start) e)

/-- Where include directives lead, and what is there. -/
structure Includer where
  /-- The path of a directive that stands in a file. -/
  target : Include → (source : Path) → Path
  /-- The statements of a file, without those of the files that it includes. -/
  load : Path → Except PageFault (List Stmt)
  /-- How many normalized paths load, at most. -/
  size : Nat

/-- The includer that reads files under some rules. -/
def Includer.ofReader (reader : Reader) (rules : LoadRules) : Includer where
  target := fun i source => i.target rules.root source
  load := fun path =>
    match reader.read path with
    | .error fault => .error (.unreadable path fault)
    | .ok source =>
      readProgram path (if rules.isMarkup path then .markup else .code) source
  size := reader.size

/-! ## Attaching to a tree -/

mutual

/-- Attaches statements to the include directives of a statement, as `attach` finds them. -/
def Stmt.expand (attach : Include → Except PageFault (List Stmt)) : Stmt → Except PageFault Stmt
  | .includeFile span directive none => do
    let attached ← attach directive
    pure (.includeFile span directive (some attached))
  | .block span body => do
    let body ← Stmt.expandBody attach body
    pure (.block span body)
  | .branch span cond thenBody elseBody => do
    let thenBody ← Stmt.expandBody attach thenBody
    let elseBody ← Stmt.expandBody attach elseBody
    pure (.branch span cond thenBody elseBody)
  | .loop span cond body untilTrue testsAfter => do
    let body ← Stmt.expandBody attach body
    pure (.loop span cond body untilTrue testsAfter)
  | .count span var first last step body => do
    let body ← Stmt.expandBody attach body
    pure (.count span var first last step body)
  | .forEach span var collection body => do
    let body ← Stmt.expandBody attach body
    pure (.forEach span var collection body)
  | .withObject span object body => do
    let body ← Stmt.expandBody attach body
    pure (.withObject span object body)
  | .select span subject cases => do
    let cases ← Stmt.expandCases attach cases
    pure (.select span subject cases)
  | .procedure span (.mk name kind params body access) => do
    let body ← Stmt.expandBody attach body
    pure (.procedure span (.mk name kind params body access))
  | .property span form (.mk name kind params body access) isDefault => do
    let body ← Stmt.expandBody attach body
    pure (.property span form (.mk name kind params body access) isDefault)
  | .classDecl span name members => do
    let members ← Stmt.expandBody attach members
    pure (.classDecl span name members)
  | .includeFile span directive (some body) => .ok (.includeFile span directive (some body))
  | .assign span target value => .ok (.assign span target value)
  | .call span e => .ok (.call span e)
  | .const span name value => .ok (.const span name value)
  | .dim span name bounds access => .ok (.dim span name bounds access)
  | .redim span name bounds preserve => .ok (.redim span name bounds preserve)
  | .exit span kind => .ok (.exit span kind)
  | .onError span kind => .ok (.onError span kind)
  | .optionExplicit span on => .ok (.optionExplicit span on)

/-- Attaches statements to the include directives of statements, in order. -/
def Stmt.expandBody (attach : Include → Except PageFault (List Stmt)) :
    List Stmt → Except PageFault (List Stmt)
  | [] => .ok []
  | stmt :: rest => do
    let stmt ← stmt.expand attach
    let rest ← Stmt.expandBody attach rest
    pure (stmt :: rest)

/-- Attaches statements to the include directives of the cases of a `select` statement. -/
def Stmt.expandCases (attach : Include → Except PageFault (List Stmt)) :
    List Case → Except PageFault (List Case)
  | [] => .ok []
  | .mk conditions body :: rest => do
    let body ← Stmt.expandBody attach body
    let rest ← Stmt.expandCases attach rest
    pure (.mk conditions body :: rest)

end

/-! ## Following the chain -/

namespace Includer

/-- Attaches the files that statements include.  `source` is the file they stand in, `above` the
files that include it, the innermost first; no more than `bound` files are expanded inside each
other. -/
def expandWithin (inc : Includer) : (bound : Nat) → (source : Path) → (above : List Path) →
    List Stmt → Except PageFault (List Stmt)
  | 0, _, _, _ => .error .exhausted
  | bound + 1, source, above, body =>
    Stmt.expandBody
      (fun directive =>
        let target := (inc.target directive source).normalize
        if target ∈ source :: above then
          .error (.includeCycle ((target :: source :: above).reverse))
        else do
          let included ← inc.load target
          inc.expandWithin bound target (source :: above) included)
      body

/-- Attaches the files that the statements of a page include.  The files of a chain are distinct
and, the page apart, all of them load, which bounds its length. -/
def expand (inc : Includer) (path : Path) (body : List Stmt) : Except PageFault (List Stmt) :=
  inc.expandWithin (inc.size + 2) path.normalize [] body

/-- The statements of a page with the files that it includes. -/
def loadPage (inc : Includer) (path : Path) : Except PageFault (List Stmt) := do
  let body ← inc.load path
  inc.expand path body

end Includer

end PageScript
