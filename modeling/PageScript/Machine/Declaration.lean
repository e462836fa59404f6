import PageScript.Machine.Run

/-!
# Machine/Declaration — declaring names before anything runs

Before the statements of a page or a procedure run, its variables, constants and procedures are
declared in its frame.  Statements inside blocks, branches, loops and attached includes declare in
the same frame; classes declare nothing, and what is written inside a procedure is declared by each
call of it.
-/

namespace PageScript

/-- Declares a procedure in the frame whose names it will see.  Procedures are declared by pages
only, so the frame of a procedure outlives it. -/
def Procedure.declare (frame : FrameId) (decl : Procedure) : Run Unit := do
  let here ← Run.visiting frame fun frame => Run.look (·.frames.get frame)
  if here.procedure.isSome then
    Run.fail (.unsupported ("declaring " ++ decl.name.text ++ " inside a procedure"))
  else
    let id ← Run.step (·.newFunction (.script decl frame))
    let _ ← Run.declare frame .unique decl.name (.function id)

mutual

/-- Declares the names of a statement in a frame. -/
def Stmt.declare (frame : FrameId) : Stmt → Run Unit
  | .dim _ name _ _ => do
    let _ ← Run.declare frame .unique name .empty
  | .const _ name value => do
    let _ ← Run.declare frame .readonly name (.ofLiteral value)
  | .procedure _ decl => decl.declare frame
  | .block _ body | .loop _ _ body _ _ | .count _ _ _ _ _ body | .forEach _ _ _ body
  | .withObject _ _ body | .property _ _ (.mk _ _ _ body _) _ | .includeFile _ _ (some body) =>
    Stmt.declareBody frame body
  | .branch _ _ thenBody elseBody => do
    Stmt.declareBody frame thenBody
    Stmt.declareBody frame elseBody
  | .select _ _ cases => Stmt.declareCases frame cases
  | .assign .. | .call .. | .redim .. | .classDecl .. | .exit .. | .onError .. | .optionExplicit ..
  | .includeFile _ _ none => pure ()

/-- Declares the names of statements in a frame, in order. -/
def Stmt.declareBody (frame : FrameId) : List Stmt → Run Unit
  | [] => pure ()
  | stmt :: rest => do
    Run.within stmt.span (stmt.declare frame)
    Stmt.declareBody frame rest

/-- Declares the names of the cases of a `select` statement. -/
def Stmt.declareCases (frame : FrameId) : List Case → Run Unit
  | [] => pure ()
  | .mk _ body :: rest => do
    Stmt.declareBody frame body
    Stmt.declareCases frame rest

end

end PageScript
