import PageScript.Machine.Evaluation
import PageScript.Proofs.Syntax.Reading

/-!
# Proofs/Machine/Unplaced — expressions are evaluated wherever they stand

Evaluating an expression makes no use of the places that it and its parts were read from, not even in
the text of a fault (`evaluateWithin_unplaced`).
-/

namespace PageScript

/-! ## Expressions -/

mutual

theorem Expr.display_unplaced : ∀ e : Expr, e.unplaced.display = e.display
  | .literal .. | .var .. | .withMember .. | .create .. => rfl
  | .member _ object _ => by rw [unplaced, display, display, object.display_unplaced]
  | .call _ callee args => by
    rw [unplaced, display, display, callee.display_unplaced, Expr.displayArgs_unplaced args]
  | .binary _ _ left right => by
    rw [unplaced, display, display, left.display_unplaced, right.display_unplaced]
  | .unary _ _ operand => by rw [unplaced, display, display, operand.display_unplaced]

theorem Expr.displayArgs_unplaced : ∀ args : List Arg,
    Expr.displayArgs (Expr.unplacedArgs args) = Expr.displayArgs args
  | [] => rfl
  | .mk value _ :: rest => by
    rw [Expr.unplacedArgs, Expr.displayArgs, Expr.displayArgs, Expr.displayArgs_unplaced rest,
      Arg.unplaced, Arg.display, Arg.display, value.display_unplaced]

end

theorem Expr.length_unplacedArgs : ∀ args : List Arg, (Expr.unplacedArgs args).length = args.length
  | [] => rfl
  | _ :: rest => congrArg Nat.succ (length_unplacedArgs rest)

/-! ## Evaluating them -/

namespace Evaluator

/-- An evaluator of expressions makes no use of where they stand. -/
def IgnoresPlaces (ev : Evaluator) : Prop :=
  ∀ (c : FrameId) (e : Expr), ev.evaluate c e.unplaced = ev.evaluate c e

theorem recursionCell?_unplaced (s : State) (c : FrameId) (e : Expr) :
    recursionCell? s c e.unplaced = recursionCell? s c e := by
  cases e <;> rfl

namespace IgnoresPlaces

variable {ev : Evaluator} (h : ev.IgnoresPlaces) (c : FrameId)

include h

theorem operand (e : Expr) : ev.operand c e.unplaced = ev.operand c e := by
  rw [Evaluator.operand, Evaluator.operand, h, e.isReference_unplaced]

theorem operandValue (e : Expr) : ev.operandValue c e.unplaced = ev.operandValue c e := by
  rw [Evaluator.operandValue, Evaluator.operandValue, h.operand]

theorem place (e : Expr) : ev.place c e.unplaced = ev.place c e := by
  cases e with
  | member s object name => rw [Expr.unplaced, Evaluator.place, Evaluator.place, h.operandValue]
  | withMember => rfl
  | _ => exact h c _

theorem passed (param : Param) (arg : Arg) : ev.passed c param arg.unplaced = ev.passed c param arg := by
  cases arg with
  | mk value byValue =>
    simp only [Arg.unplaced, Evaluator.passed, Arg.value, Arg.byValue, value.isPlace_unplaced,
      h.place, h.operandValue]
    rfl

theorem passedAll : ∀ (params : List Param) (args : List Arg),
    ev.passedAll c (params.zip (Expr.unplacedArgs args)) = ev.passedAll c (params.zip args)
  | [], _ => rfl
  | _ :: _, [] => rfl
  | param :: params, arg :: args => by
    rw [Expr.unplacedArgs, List.zip_cons_cons, List.zip_cons_cons, Evaluator.passedAll,
      Evaluator.passedAll, h.passed, passedAll params args]

theorem operands : ∀ args : List Arg,
    ev.operands c (Expr.unplacedArgs args) = ev.operands c args
  | [] => rfl
  | .mk value _ :: args => by
    rw [Expr.unplacedArgs, Evaluator.operands, Evaluator.operands, operands args]
    simp only [Arg.unplaced, Arg.value, h.operand]

theorem call (f : Callable) (args : List Arg) :
    ev.call c f (Expr.unplacedArgs args) = ev.call c f args := by
  cases f with
  | native => rw [Evaluator.call, Evaluator.call, h.operands]
  | script => rw [Evaluator.call, Evaluator.call, h.passedAll, Expr.length_unplacedArgs]

theorem applyCall (callee : Expr) (args : List Arg) :
    ev.applyCall c callee.unplaced (Expr.unplacedArgs args) = ev.applyCall c callee args := by
  simp only [Evaluator.applyCall, calledValue, recursionCell?_unplaced, h c, h.call,
    callee.display_unplaced]

theorem evaluateExpr (e : Expr) : ev.evaluateExpr c e.unplaced = ev.evaluateExpr c e := by
  cases e with
  | literal | var | withMember | create => rfl
  | member s object name => rw [Expr.unplaced, Evaluator.evaluateExpr, Evaluator.evaluateExpr, h.operandValue]
  | call s callee args => exact h.applyCall c callee args
  | binary s op left right =>
    cases op <;> simp only [Expr.unplaced, Evaluator.evaluateExpr, h.operandValue, h c]
  | unary s op operand =>
    simp only [Expr.unplaced, Evaluator.evaluateExpr, h.operandValue]

end IgnoresPlaces

theorem ignoresPlaces_ofBound : ∀ n : Nat, (ofBound n).IgnoresPlaces
  | 0, _, _ => rfl
  | n + 1, c, e => (ignoresPlaces_ofBound n).evaluateExpr c e

/-- **Places are nothing to assignments**: what one does depends on its target and its value up to
places only. -/
theorem execute_assign_unplaced (n : Nat) (c : FrameId) (span : Span) (target value : Expr) :
    (ofBound n).execute c (.assign .origin target.unplaced value.unplaced) =
      (ofBound n).execute c (.assign span target value) := by
  cases n with
  | zero => rfl
  | succ n =>
    have h := ignoresPlaces_ofBound n
    change (ofBound n).executeStmt c (.assign .origin target.unplaced value.unplaced) =
      (ofBound n).executeStmt c (.assign span target value)
    simp only [executeStmt, h.operandValue, h.place, target.display_unplaced]

end Evaluator

end PageScript
