import Mathlib.Logic.Relation
import PageScript.Proofs.Machine.Passing

/-!
# Proofs/Machine/Course — what a run comes to

A stage is something to be done in a frame from a state: an expression to be evaluated, a statement
to be executed, what is left of a loop.  `a.Turns b` says that the run of `a` comes to `b` as one of
its own parts; `a.Enters b` that it comes to `b` as the body of a `with` block or of a procedure.
The relations follow the clauses of the machine, one rule for each part of a clause; what runs before
the part has to end with a result, at any bound.
-/

namespace PageScript

open Evaluator (ofBound SharesPlace)

/-- Something that a run has to do in a frame. -/
inductive Task where
  /-- Evaluates an expression to the cell that it denotes. -/
  | evaluate (e : Expr)
  /-- Evaluates an expression where its value is wanted. -/
  | operand (e : Expr)
  /-- Evaluates the target of an assignment. -/
  | target (e : Expr)
  /-- Evaluates an argument that is handed over itself. -/
  | share (e : Expr)
  /-- Evaluates the arguments of a native function. -/
  | operands (args : List Arg)
  /-- Evaluates arguments for parameters. -/
  | passing (pairs : List (Param × Arg))
  | execute (stmt : Stmt)
  | body (stmts : List Stmt)
  /-- Goes on with a counting loop. -/
  | counting (var : Name) (counter : CellId) (last step : Float) (body : List Stmt)
  /-- Goes on with a loop over some cells. -/
  | each (var : Name) (element : CellId) (body : List Stmt) (items : List CellId)
  /-- Compares a value with conditions of a case. -/
  | matching (subject : Value) (conditions : List Expr)
  /-- Looks for the case that a value selects. -/
  | cases (subject : Value) (cases : List Case)

/-- Something that a run has to do in a frame, from a state on. -/
structure Stage where
  frame : FrameId
  task : Task
  state : State

namespace Stage

/-- The parts of a run, with the frame and the `with` objects that it has itself. -/
inductive Turns : Stage → Stage → Prop
  -- expressions
  | operand {c s e} : Turns ⟨c, .operand e, s⟩ ⟨c, .evaluate e, s⟩
  | object {c s span object name} :
    Turns ⟨c, .evaluate (.member span object name), s⟩ ⟨c, .operand object, s⟩
  | isLeft {c s span left right} :
    Turns ⟨c, .evaluate (.binary span .is left right), s⟩ ⟨c, .evaluate left, s⟩
  | isRight {c s t span left right cell}
    (hleft : ∃ n, (ofBound n).evaluate c left s = .done cell t) :
    Turns ⟨c, .evaluate (.binary span .is left right), s⟩ ⟨c, .evaluate right, t⟩
  | left {c s span op left right} (hop : op ≠ .is) :
    Turns ⟨c, .evaluate (.binary span op left right), s⟩ ⟨c, .operand left, s⟩
  | right {c s t span op left right v} (hop : op ≠ .is)
    (hleft : ∃ n, (ofBound n).operandValue c left s = .done v t) :
    Turns ⟨c, .evaluate (.binary span op left right), s⟩ ⟨c, .operand right, t⟩
  | unary {c s span op e} : Turns ⟨c, .evaluate (.unary span op e), s⟩ ⟨c, .operand e, s⟩
  | callee {c s span callee args} (other : Evaluator.recursionCell? s c callee = none) :
    Turns ⟨c, .evaluate (.call span callee args), s⟩ ⟨c, .evaluate callee, s⟩
  | operands {c s t span callee args f name service held}
    (hcallee : ∃ n, (ofBound n).calledValue c callee s = .done f t)
    (found : Evaluator.callable? t f = some (.native name service held)) :
    Turns ⟨c, .evaluate (.call span callee args), s⟩ ⟨c, .operands args, t⟩
  | passing {c s t span callee args f decl home}
    (hcallee : ∃ n, (ofBound n).calledValue c callee s = .done f t)
    (found : Evaluator.callable? t f = some (.script decl home))
    (fits : args.length = decl.params.length) :
    Turns ⟨c, .evaluate (.call span callee args), s⟩ ⟨c, .passing (decl.params.zip args), t⟩
  -- arguments and places
  | argument {c s arg rest} :
    Turns ⟨c, .operands (arg :: rest), s⟩ ⟨c, .operand arg.value, s⟩
  | arguments {c s t arg rest cell}
    (hfirst : ∃ n, (ofBound n).operand c arg.value s = .done cell t) :
    Turns ⟨c, .operands (arg :: rest), s⟩ ⟨c, .operands rest, t⟩
  | share {c s param arg rest} (shares : SharesPlace param arg) :
    Turns ⟨c, .passing ((param, arg) :: rest), s⟩ ⟨c, .share arg.value, s⟩
  | copy {c s param arg rest} (copies : ¬SharesPlace param arg) :
    Turns ⟨c, .passing ((param, arg) :: rest), s⟩ ⟨c, .operand arg.value, s⟩
  | passed {c s t param arg rest cell}
    (hfirst : ∃ n, (ofBound n).passed c param arg s = .done cell t) :
    Turns ⟨c, .passing ((param, arg) :: rest), s⟩ ⟨c, .passing rest, t⟩
  | shared {c s e} : Turns ⟨c, .share e, s⟩ ⟨c, .target e, s⟩
  | targetObject {c s span object name} :
    Turns ⟨c, .target (.member span object name), s⟩ ⟨c, .operand object, s⟩
  | target {c s e} (hmember : ∀ span object name, e ≠ .member span object name)
    (hwith : ∀ span name, e ≠ .withMember span name) :
    Turns ⟨c, .target e, s⟩ ⟨c, .evaluate e, s⟩
  -- statements
  | first {c s stmt rest} : Turns ⟨c, .body (stmt :: rest), s⟩ ⟨c, .execute stmt, s⟩
  | further {c s t stmt rest} (hstmt : ∃ n, (ofBound n).execute c stmt s = .done () t) :
    Turns ⟨c, .body (stmt :: rest), s⟩ ⟨c, .body rest, t⟩
  | block {c s span body} : Turns ⟨c, .execute (.block span body), s⟩ ⟨c, .body body, s⟩
  | included {c s span directive body} :
    Turns ⟨c, .execute (.includeFile span directive (some body)), s⟩ ⟨c, .body body, s⟩
  | value {c s span target value} :
    Turns ⟨c, .execute (.assign span target value), s⟩ ⟨c, .operand value, s⟩
  | assigned {c s t span target value v}
    (hvalue : ∃ n, (ofBound n).operandValue c value s = .done v t) :
    Turns ⟨c, .execute (.assign span target value), s⟩ ⟨c, .target target, t⟩
  | call {c s span e} : Turns ⟨c, .execute (.call span e), s⟩ ⟨c, .evaluate e, s⟩
  | withOperand {c s span object body} :
    Turns ⟨c, .execute (.withObject span object body), s⟩ ⟨c, .operand object, s⟩
  | condition {c s span cond thenBody elseBody} :
    Turns ⟨c, .execute (.branch span cond thenBody elseBody), s⟩ ⟨c, .operand cond, s⟩
  | branch {c s t span cond thenBody elseBody holds}
    (hcond : ∃ n, (ofBound n).condition c cond s = .done holds t) :
    Turns ⟨c, .execute (.branch span cond thenBody elseBody), s⟩
      ⟨c, .body (if holds then thenBody else elseBody), t⟩
  -- loops
  | test {c s span cond body untilTrue} :
    Turns ⟨c, .execute (.loop span cond body untilTrue false), s⟩ ⟨c, .operand cond, s⟩
  | pass {c s t span cond body untilTrue holds}
    (hcond : ∃ n, (ofBound n).condition c cond s = .done holds t)
    (due : (holds == untilTrue) = false) :
    Turns ⟨c, .execute (.loop span cond body untilTrue false), s⟩ ⟨c, .body body, t⟩
  | again {c s t span cond body untilTrue}
    (hpass : ∃ n, (ofBound n).loopPass c cond body untilTrue s = .done true t) :
    Turns ⟨c, .execute (.loop span cond body untilTrue false), s⟩
      ⟨c, .execute (.loop span cond body untilTrue false), t⟩
  | untested {c s span cond body untilTrue} :
    Turns ⟨c, .execute (.loop span cond body untilTrue true), s⟩ ⟨c, .body body, s⟩
  | tested {c s t span cond body untilTrue}
    (hbody : ∃ n, (ofBound n).executeBody c body s = .done () t) :
    Turns ⟨c, .execute (.loop span cond body untilTrue true), s⟩
      ⟨c, .execute (.loop span cond body untilTrue false), t⟩
  | countFirst {c s span var first last step body} :
    Turns ⟨c, .execute (.count span var first last step body), s⟩ ⟨c, .operand first, s⟩
  | countLast {c s t span var first last step body x}
    (hfirst : ∃ n, (ofBound n).operandNumber c first s = .done x t) :
    Turns ⟨c, .execute (.count span var first last step body), s⟩ ⟨c, .operand last, t⟩
  | countStep {c s t u span var first last step body x y}
    (hfirst : ∃ n, (ofBound n).operandNumber c first s = .done x t)
    (hlast : ∃ n, (ofBound n).operandNumber c last t = .done y u) :
    Turns ⟨c, .execute (.count span var first last step body), s⟩ ⟨c, .operand step, u⟩
  | count {c s t u v w span var first last step body x y z counter}
    (hfirst : ∃ n, (ofBound n).operandNumber c first s = .done x t)
    (hlast : ∃ n, (ofBound n).operandNumber c last t = .done y u)
    (hstep : ∃ n, (ofBound n).operandNumber c step u = .done z v)
    (hvar : Evaluator.variableCell c var v = .done counter w)
    (writable : w.store.isReadonly counter = false) :
    Turns ⟨c, .execute (.count span var first last step body), s⟩
      ⟨c, .counting var counter y z body, w.put counter (.number x)⟩
  | countPass {c s var counter last step body x} (current : (s.store.read counter).toNumber = .ok x)
    (due : ¬if step ≥ 0 then x > last else x < last) :
    Turns ⟨c, .counting var counter last step body, s⟩ ⟨c, .body body, s⟩
  | countAgain {c s t var counter last step body}
    (hpass : ∃ n, (ofBound n).countPass c var counter last step body s = .done true t) :
    Turns ⟨c, .counting var counter last step body, s⟩ ⟨c, .counting var counter last step body, t⟩
  | collection {c s span var collection body} :
    Turns ⟨c, .execute (.forEach span var collection body), s⟩ ⟨c, .operand collection, s⟩
  | each {c s t u span var collection body id element}
    (hcollection : ∃ n, (ofBound n).operandValue c collection s = .done (.object id) t)
    (hvar : Evaluator.variableCell c var t = .done element u) :
    Turns ⟨c, .execute (.forEach span var collection body), s⟩
      ⟨c, .each var element body (t.store.members id).values, u⟩
  | eachPass {c s var element body item items} (writable : s.store.isReadonly element = false) :
    Turns ⟨c, .each var element body (item :: items), s⟩
      ⟨c, .body body, s.put element (s.store.read item)⟩
  | eachNext {c s t var element body item items} (writable : s.store.isReadonly element = false)
    (hbody : ∃ n, (ofBound n).executeBody c body (s.put element (s.store.read item)) = .done () t) :
    Turns ⟨c, .each var element body (item :: items), s⟩ ⟨c, .each var element body items, t⟩
  -- cases
  | subject {c s span subject cases} :
    Turns ⟨c, .execute (.select span subject cases), s⟩ ⟨c, .operand subject, s⟩
  | cases {c s t span subject cases v}
    (hsubject : ∃ n, (ofBound n).operandValue c subject s = .done v t) :
    Turns ⟨c, .execute (.select span subject cases), s⟩ ⟨c, .cases v cases, t⟩
  | otherwise {c s v body rest} :
    Turns ⟨c, .cases v (.mk none body :: rest), s⟩ ⟨c, .body body, s⟩
  | «matching» {c s v conditions body rest} :
    Turns ⟨c, .cases v (.mk (some conditions) body :: rest), s⟩ ⟨c, .matching v conditions, s⟩
  | selected {c s t v conditions body rest}
    (hmatch : ∃ n, (ofBound n).matchesAny c v conditions s = .done true t) :
    Turns ⟨c, .cases v (.mk (some conditions) body :: rest), s⟩ ⟨c, .body body, t⟩
  | unselected {c s t v conditions body rest}
    (hmatch : ∃ n, (ofBound n).matchesAny c v conditions s = .done false t) :
    Turns ⟨c, .cases v (.mk (some conditions) body :: rest), s⟩ ⟨c, .cases v rest, t⟩
  | compared {c s v e rest} : Turns ⟨c, .matching v (e :: rest), s⟩ ⟨c, .operand e, s⟩
  | different {c s t v e rest w}
    (hvalue : ∃ n, (ofBound n).operandValue c e s = .done w t) (differ : v.areEqual w = .ok false) :
    Turns ⟨c, .matching v (e :: rest), s⟩ ⟨c, .matching v rest, t⟩

/-- The bodies that a run enters. -/
inductive Enters : Stage → Stage → Prop
  | withObject {c s t span object body cell}
    (hobject : ∃ n, (ofBound n).operand c object s = .done cell t) :
    Enters ⟨c, .execute (.withObject span object body), s⟩
      ⟨c, .body body, { t with objects := cell :: t.objects }⟩
  | bareCall {c s t u e cell decl home} (reference : e.isReference = true)
    (hcell : ∃ n, (ofBound n).evaluate c e s = .done cell t)
    (found : t.store.bareCall? (t.store.read cell) = some (decl, home)) (room : t.isFull = false)
    (declared : Stmt.declareBody t.nextFrame decl.body (t.calling decl home []) = .done () u) :
    Enters ⟨c, .operand e, s⟩ ⟨t.nextFrame, .body decl.body, u⟩
  | call {c s t u v span callee args f decl home cells}
    (hcallee : ∃ n, (ofBound n).calledValue c callee s = .done f t)
    (found : Evaluator.callable? t f = some (.script decl home))
    (fits : args.length = decl.params.length)
    (hargs : ∃ n, (ofBound n).passedAll c (decl.params.zip args) t = .done cells u)
    (room : u.isFull = false)
    (declared : Stmt.declareBody u.nextFrame decl.body (u.calling decl home cells) = .done () v) :
    Enters ⟨c, .evaluate (.call span callee args), s⟩ ⟨u.nextFrame, .body decl.body, v⟩

/-- What a run comes to without entering a body. -/
def Leads : Stage → Stage → Prop := Relation.ReflTransGen Turns

/-- What a run comes to. -/
def Comes : Stage → Stage → Prop := Relation.ReflTransGen fun a b => a.Turns b ∨ a.Enters b

end Stage

end PageScript
