import PageScript.Machine.Evaluation
import PageScript.Machine.Host
import PageScript.Site.Cache

/-!
# Site/Page — rendering a page

A page runs in a frame of its own that sees the frame of the host.  What it writes goes to the
response, and stays there if the page stops with a fault.
-/

namespace PageScript

/-- The steps of a page: the frame of the host, the frame of the page, then its statements. -/
def pageRun (ev : Evaluator) (host : Host) (explicit : Bool) (body : List Stmt) : Run Unit := do
  let outer ← host.install
  let page ← Run.visiting outer fun outer => Run.step (·.pushChild outer)
  if explicit then
    Run.visiting page fun page => Run.change (·.mapFrames (·.setExplicit page true))
  ev.runBody page body

/-- Renders a loaded page in a world whose store holds the values of the host. -/
def renderPage (host : Host) (config : Configuration) (body : List Stmt) (world : World) :
    Except PageFault Unit × World :=
  match pageRun .ample host config.explicit body (.start world config.limit) with
  | .done () s => (.ok (), s.world)
  | .failed fault s => (.error (.runtime fault), s.world)
  | .exhausted => (.error .exhausted, world)

/-- Renders the page at a path. -/
def renderAt (cache : PageCache) (reader : Reader) (host : Host) (config : Configuration)
    (path : Path) (world : World) : Except PageFault Unit × PageCache × World :=
  match cache.load reader config.loadRules path with
  | (.ok body, cache) =>
    let (result, world) := renderPage host config body world
    (result, cache, world)
  | (.error fault, cache) => (.error fault, cache, world)

end PageScript
