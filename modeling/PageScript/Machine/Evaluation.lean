import PageScript.Machine.Declaration
import PageScript.Machine.Native
import PageScript.Syntax.Expr.Display
import PageScript.Value.Operator

/-!
# Machine/Evaluation — running expressions and statements

An expression is evaluated to a cell: a variable to its own, so that it can be written to through
the result, a literal or the result of an operator to a new one.  Every clause is written against an
`Evaluator` for the parts of its expression or statement; `Evaluator.ofBound` closes the circle with
a bound on how deep parts may nest and how often a loop may repeat.
-/

namespace PageScript

/-- How the parts of expressions and statements are run. -/
structure Evaluator where
  evaluate : FrameId → Expr → Run CellId
  execute : FrameId → Stmt → Run Unit
  /-- How many passes a loop can make. -/
  passes : Nat

namespace Store

/-- The procedure that a bare reference to a value calls: one of the script without parameters. -/
def bareCall? (s : Store) (value : Value) : Option (Procedure × FrameId) :=
  match value with
  | .function id =>
    match s.function? id with
    | some (.script decl home) => if decl.params.isEmpty then some (decl, home) else none
    | _ => none
  | _ => none

end Store

namespace Evaluator

variable (ev : Evaluator)

/-- Executes statements in order.  A fault carries the place of the innermost statement. -/
def executeBody (frame : FrameId) : List Stmt → Run Unit
  | [] => pure ()
  | stmt :: rest => do
    Run.within stmt.span (ev.execute frame stmt)
    executeBody frame rest

/-! ## Calls -/

/-- Binds the parameters of a procedure to the cells passed for them. -/
def bindAll (frame : FrameId) (params : List Param) (args : List CellId) : Run Unit :=
  Run.visiting frame fun frame =>
    Run.change fun s => (params.zip args).foldl (fun s (p, cell) => s.bind frame p.name cell) s

/-- Runs a procedure in a frame of its own, which sees the names of the frame `home` that the
procedure was declared in.  The procedure's own name is bound to the cell of its result. -/
def runProcedure (decl : Procedure) (home : FrameId) (args : List CellId) : Run CellId :=
  Run.withoutObjects <| Run.about (.call decl home) <| Run.inCall home fun frame => do
    Run.visiting frame fun frame => Run.change (·.mapFrames (·.setProcedure frame decl.name))
    let result ← Run.declare frame .replacing decl.name .empty
    bindAll frame decl.params args
    Stmt.declareBody frame decl.body
    ev.executeBody frame decl.body
    pure result

/-- Evaluates an expression where its value is wanted: a bare reference to a procedure without
parameters calls it. -/
def operand (frame : FrameId) (e : Expr) : Run CellId := do
  let cell ← ev.evaluate frame e
  if e.isReference then
    match ← Run.look fun s => s.store.bareCall? (s.store.read cell) with
    | some (decl, home) => ev.runProcedure decl home []
    | none => pure cell
  else pure cell

/-- The value of an expression where its value is wanted. -/
def operandValue (frame : FrameId) (e : Expr) : Run Value := do
  let cell ← ev.operand frame e
  Run.read cell

/-- The number that an expression counts as. -/
def operandNumber (frame : FrameId) (e : Expr) : Run Float := do
  let value ← ev.operandValue frame e
  Run.ofExcept value.toNumber

/-- Whether an expression counts as true. -/
def condition (frame : FrameId) (e : Expr) : Run Bool := do
  let value ← ev.operandValue frame e
  Run.ofExcept value.isTrue

/-! ## Variables and members -/

/-- The cell of a variable, which is made if it may be. -/
def variableCell (frame : FrameId) (name : Name) : Run CellId := do
  match ← Run.visiting frame fun frame => Run.step fun s => s.resolve frame name true with
  | some cell => pure cell
  | none => Run.fail (.undeclared name.text)

/-- The object of the innermost `with` block. -/
def enclosingObject : Run Value := do
  match (← Run.look (·.objects)).head? with
  | some cell => Run.read cell
  | none => Run.fail (.objectRequired "with")

/-- The cell of a member that has to be there. -/
def memberCell (object : Value) (name : Name) : Run CellId := do
  match object with
  | .object id =>
    match ← Run.look fun s => (s.store.members id).get? name.text with
    | some cell => pure cell
    | none => Run.fail (.memberNotFound name.text)
  | _ => Run.fail (.objectRequired name.text)

/-- The cell of a member, which is made if it is not there. -/
def memberPlace (object : Value) (name : Name) : Run CellId := do
  match object with
  | .object id => Run.step fun s => s.memberOrNew id name
  | _ => Run.fail (.objectRequired name.text)

/-- The cell that an expression denotes as the target of an assignment. -/
def place (frame : FrameId) : Expr → Run CellId
  | .member _ object name => do
    let object ← ev.operandValue frame object
    memberPlace object name
  | .withMember _ name => do
    let object ← enclosingObject
    memberPlace object name
  | e => ev.evaluate frame e

/-! ## Arguments -/

/-- The cell passed for a parameter: the caller's own for a place passed by reference, else a new
one with the value of the argument. -/
def passed (frame : FrameId) (param : Param) (arg : Arg) : Run CellId := do
  if param.byRef && !arg.byValue && arg.value.isPlace then ev.place frame arg.value
  else
    let value ← ev.operandValue frame arg.value
    Run.newCell value

/-- The cells passed for parameters, evaluated from left to right. -/
def passedAll (frame : FrameId) : List (Param × Arg) → Run (List CellId)
  | [] => pure []
  | (param, arg) :: rest => do
    let first ← ev.passed frame param arg
    let further ← passedAll frame rest
    pure (first :: further)

/-- The cells of the arguments of a native function, evaluated from left to right. -/
def operands (frame : FrameId) : List Arg → Run (List CellId)
  | [] => pure []
  | arg :: rest => do
    let first ← ev.operand frame arg.value
    let further ← operands frame rest
    pure (first :: further)

/-- Calls a function with arguments that are evaluated in the caller's frame. -/
def call (frame : FrameId) (f : Callable) (args : List Arg) : Run CellId :=
  match f with
  | .native _ service held => do
    let cells ← ev.operands frame args
    service.call held cells
  | .script decl home =>
    if args.length ≠ decl.params.length then
      Run.fail (.arity decl.name.text decl.params.length args.length)
    else do
      let cells ← ev.passedAll frame (decl.params.zip args)
      ev.runProcedure decl home cells

/-- The cell outside the running procedure of a callee that is the procedure's own name: inside, the
name is the cell of the result, but calling it calls the procedure again. -/
def recursionCell? (s : State) (frame : FrameId) (callee : Expr) : Option CellId :=
  match callee with
  | .var _ name =>
    let here := s.frames.get frame
    if here.procedure = some name then here.parent.bind (s.lookup · name.text) else none
  | _ => none

/-- The value that is called. -/
def calledValue (frame : FrameId) (callee : Expr) : Run Value := do
  match ← Run.visiting frame fun frame => Run.look (recursionCell? · frame callee) with
  | some cell => Run.read cell
  | none =>
    let cell ← ev.evaluate frame callee
    Run.read cell

/-- The function that a value is, if it is one. -/
def callable? (s : State) : Value → Option Callable
  | .function id => s.store.function? id
  | _ => none

/-- Evaluates a call. -/
def applyCall (frame : FrameId) (callee : Expr) (args : List Arg) : Run CellId := do
  let value ← ev.calledValue frame callee
  match ← Run.look (callable? · value) with
  | some f => ev.call frame f args
  | none => Run.fail (.typeMismatch ("'" ++ callee.display ++ "' is not a function") value.kind)

/-! ## Expressions -/

/-- Evaluates an expression, its parts with the given evaluator. -/
def evaluateExpr (frame : FrameId) : Expr → Run CellId
  | .literal _ value => Run.newCell (.ofLiteral value)
  | .var _ name => variableCell frame name
  | .member _ object name => do
    let object ← ev.operandValue frame object
    memberCell object name
  | .withMember _ name => do
    let object ← enclosingObject
    memberCell object name
  | .call _ callee args => ev.applyCall frame callee args
  | .create _ path =>
    Run.fail (.unsupported ("new " ++ String.intercalate "." (path.map Name.text)))
  | .binary _ .is left right => do
    let left ← Run.read (← ev.evaluate frame left)
    let right ← Run.read (← ev.evaluate frame right)
    let value ← Run.ofExcept (Value.applyBinary .is left right)
    Run.newCell value
  | .binary _ op left right => do
    let left ← ev.operandValue frame left
    let right ← ev.operandValue frame right
    let value ← Run.ofExcept (Value.applyBinary op left right)
    Run.newCell value
  | .unary _ op e => do
    let value ← ev.operandValue frame e
    let value ← Run.ofExcept (Value.applyUnary op value)
    Run.newCell value

/-! ## Statements -/

/-- One pass of a conditional loop that tests before its body; the answer is whether to go on. -/
def loopPass (frame : FrameId) (cond : Expr) (body : List Stmt) (untilTrue : Bool) : Run Bool := do
  let holds ← ev.condition frame cond
  if holds == untilTrue then pure false
  else
    ev.executeBody frame body
    pure true

/-- One pass of a counting loop; the answer is whether to go on. -/
def countPass (frame : FrameId) (var : Name) (counter : CellId) (last step : Float)
    (body : List Stmt) : Run Bool := do
  let current ← Run.ofExcept (← Run.read counter).toNumber
  if if step ≥ 0 then current > last else current < last then pure false
  else
    ev.executeBody frame body
    let current ← Run.ofExcept (← Run.read counter).toNumber
    Run.write counter (.number (current + step)) (.readonlyWrite var.text)
    pure true

/-- Executes a body once for each of some cells, whose values a variable takes in turn. -/
def eachPass (frame : FrameId) (var : Name) (element : CellId) (body : List Stmt) :
    List CellId → Run Unit
  | [] => pure ()
  | item :: rest => do
    let value ← Run.read item
    Run.write element value (.readonlyWrite var.text)
    ev.executeBody frame body
    eachPass frame var element body rest

/-- Whether the value of an expression equals a value, for the first expression that does. -/
def matchesAny (frame : FrameId) (subject : Value) : List Expr → Run Bool
  | [] => pure false
  | e :: rest => do
    let value ← ev.operandValue frame e
    if ← Run.ofExcept (subject.areEqual value) then pure true
    else matchesAny frame subject rest

/-- Executes the first case that a value selects. -/
def executeCases (frame : FrameId) (subject : Value) : List Case → Run Unit
  | [] => pure ()
  | .mk none body :: _ => ev.executeBody frame body
  | .mk (some conditions) body :: rest => do
    if ← ev.matchesAny frame subject conditions then ev.executeBody frame body
    else executeCases frame subject rest

/-- Executes a statement, its parts with the given evaluator. -/
def executeStmt (frame : FrameId) : Stmt → Run Unit
  | .block _ body => ev.executeBody frame body
  | .assign _ target value => do
    let value ← ev.operandValue frame value
    let cell ← ev.place frame target
    Run.write cell value (.readonlyWrite target.display)
  | .call _ e => do
    let _ ← ev.evaluate frame e
  | .dim .. | .const .. | .procedure .. | .classDecl .. | .property .. => pure ()
  | .redim _ name _ _ => Run.fail (.unsupported ("redim " ++ name.text))
  | .exit _ kind => Run.fail (.unsupported ("exit " ++ kind.word))
  | .onError _ .resumeNext => Run.fail (.unsupported "on error resume next")
  | .onError _ .gotoZero => Run.fail (.unsupported "on error goto 0")
  | .branch _ cond thenBody elseBody => do
    if ← ev.condition frame cond then ev.executeBody frame thenBody
    else ev.executeBody frame elseBody
  | .loop _ cond body untilTrue testsAfter => do
    if testsAfter then ev.executeBody frame body
    Run.repeatWhile ev.passes (ev.loopPass frame cond body untilTrue)
  | .count _ var first last step body => do
    let first ← ev.operandNumber frame first
    let last ← ev.operandNumber frame last
    let step ← ev.operandNumber frame step
    let counter ← variableCell frame var
    Run.write counter (.number first) (.readonlyWrite var.text)
    Run.repeatWhile ev.passes (ev.countPass frame var counter last step body)
  | .forEach _ var collection body => do
    match ← ev.operandValue frame collection with
    | .object id => do
      let items ← Run.look fun s => (s.store.members id).values
      let element ← variableCell frame var
      ev.eachPass frame var element body items
    | .empty => pure ()
    | value =>
      Run.fail (.typeMismatch ("'" ++ collection.display ++ "' is not a collection") value.kind)
  | .select _ subject cases => do
    let subject ← ev.operandValue frame subject
    ev.executeCases frame subject cases
  | .withObject _ object body => do
    let object ← ev.operand frame object
    Run.withObject object (ev.executeBody frame body)
  | .optionExplicit _ on =>
    Run.visiting frame fun frame => Run.change (·.mapFrames (·.setExplicit frame on))
  | .includeFile _ _ (some body) => ev.executeBody frame body
  | .includeFile _ directive none =>
    Run.fail (.unsupported ("unresolved #include \"" ++ directive.path ++ "\""))

end Evaluator

/-! ## Closing the circle -/

mutual

/-- Evaluates an expression whose parts nest no deeper than the bound. -/
def evaluateWithin : (bound : Nat) → FrameId → Expr → Run CellId
  | 0, _, _ => Run.exhausted
  | bound + 1, frame, e =>
    Evaluator.evaluateExpr ⟨evaluateWithin bound, executeWithin bound, bound⟩ frame e

/-- Executes a statement whose parts nest no deeper than the bound. -/
def executeWithin : (bound : Nat) → FrameId → Stmt → Run Unit
  | 0, _, _ => Run.exhausted
  | bound + 1, frame, stmt =>
    Evaluator.executeStmt ⟨evaluateWithin bound, executeWithin bound, bound⟩ frame stmt

end

namespace Evaluator

/-- The evaluator that nests expressions, statements and calls no deeper than the bound, and that
repeats loops no more often. -/
def ofBound (bound : Nat) : Evaluator := ⟨evaluateWithin bound, executeWithin bound, bound⟩

/-- A bound that no run reaches in practice. -/
def amplePasses : Nat := 0x1000000000000000

/-- The evaluator for all practical purposes. -/
def ample : Evaluator := ofBound amplePasses

/-- Declares the names of statements and executes them: the whole life of a page. -/
def runBody (ev : Evaluator) (frame : FrameId) (body : List Stmt) : Run Unit := do
  Stmt.declareBody frame body
  ev.executeBody frame body

end Evaluator

end PageScript
