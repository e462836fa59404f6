import Mathlib.Data.List.Forall2
import PageScript.Syntax.Expr.Display
import PageScript.Syntax.Stmt.Basic

/-!
# Proofs/Syntax/Applying — bare references with parentheses behind them

A bare reference whose value is wanted can be written with or without `()`.  `e.Applies P e'` says
that `e'` is `e` with `()` behind some of the references in it that satisfy `P`, wherever an operand
stands: between operators, as the object of a member, as an argument.  The operands of `is`, callees
and targets of assignments are no operands, so they stay, but operands inside them need not.  The two
trees may have been read from different places.
-/

namespace PageScript

variable {P : Expr → Prop}

mutual

/-- The same expression, with references in its operands applied to no arguments. -/
inductive Expr.Applies (P : Expr → Prop) : Expr → Expr → Prop
  | literal {s s' : Span} {value : Literal} : Applies P (.literal s value) (.literal s' value)
  | var {s s' : Span} {name : Name} : Applies P (.var s name) (.var s' name)
  | member {s s' : Span} {object object' : Expr} {name : Name}
      (h : Expr.AppliesOperand P object object') :
      Applies P (.member s object name) (.member s' object' name)
  | withMember {s s' : Span} {name : Name} : Applies P (.withMember s name) (.withMember s' name)
  | call {s s' : Span} {callee callee' : Expr} {args args' : List Arg} (h : Applies P callee callee')
      (hargs : Expr.AppliesArgs P args args') :
      Applies P (.call s callee args) (.call s' callee' args')
  | create {s s' : Span} {path : List Name} : Applies P (.create s path) (.create s' path)
  | is {s s' : Span} {left left' right right' : Expr} (hleft : Applies P left left')
      (hright : Applies P right right') :
      Applies P (.binary s .is left right) (.binary s' .is left' right')
  | binary {s s' : Span} {op : BinaryOp} {left left' right right' : Expr} (hop : op ≠ .is)
      (hleft : Expr.AppliesOperand P left left') (hright : Expr.AppliesOperand P right right') :
      Applies P (.binary s op left right) (.binary s' op left' right')
  | unary {s s' : Span} {op : UnaryOp} {e e' : Expr} (h : Expr.AppliesOperand P e e') :
      Applies P (.unary s op e) (.unary s' op e')

/-- The same operand, perhaps a reference that is applied to no arguments itself. -/
inductive Expr.AppliesOperand (P : Expr → Prop) : Expr → Expr → Prop
  | same {e e' : Expr} (h : Expr.Applies P e e') : AppliesOperand P e e'
  | applied {s : Span} {e e' : Expr} (chosen : P e) (reference : e.isReference = true)
      (h : Expr.Applies P e e') : AppliesOperand P e (.call s e' [])

/-- The same arguments, by value or not as before. -/
inductive Expr.AppliesArgs (P : Expr → Prop) : List Arg → List Arg → Prop
  | nil : AppliesArgs P [] []
  | cons {value value' : Expr} {byValue : Bool} {rest rest' : List Arg}
      (h : Expr.AppliesOperand P value value') (hrest : AppliesArgs P rest rest') :
      AppliesArgs P (.mk value byValue :: rest) (.mk value' byValue :: rest')

end

/-- The same operands, one by one. -/
abbrev Expr.AppliesOperands (P : Expr → Prop) : List Expr → List Expr → Prop :=
  List.Forall₂ (Expr.AppliesOperand P)

mutual

/-- The same statement, with references in its operands applied to no arguments. -/
inductive Stmt.Applies (P : Expr → Prop) : Stmt → Stmt → Prop
  | block {s s' : Span} {body body' : List Stmt} (h : Stmt.AppliesAll P body body') :
      Stmt.Applies P (.block s body) (.block s' body')
  | assign {s s' : Span} {target target' value value' : Expr} (htarget : target.Applies P target')
      (hvalue : value.AppliesOperand P value') :
      Stmt.Applies P (.assign s target value) (.assign s' target' value')
  | call {s s' : Span} {e e' : Expr} (h : e.Applies P e') : Stmt.Applies P (.call s e) (.call s' e')
  | const {s s' : Span} {name : Name} {value : Literal} :
      Stmt.Applies P (.const s name value) (.const s' name value)
  | dim {s s' : Span} {name : Name} {bounds : Option (List Nat)} {access : Access} :
      Stmt.Applies P (.dim s name bounds access) (.dim s' name bounds access)
  | redim {s s' : Span} {name : Name} {bounds bounds' : List Expr} {preserve : Bool}
      (h : Expr.AppliesOperands P bounds bounds') :
      Stmt.Applies P (.redim s name bounds preserve) (.redim s' name bounds' preserve)
  | procedure {s s' : Span} {decl decl' : Procedure} (h : decl.Applies P decl') :
      Stmt.Applies P (.procedure s decl) (.procedure s' decl')
  | classDecl {s s' : Span} {name : Name} {members members' : List Stmt}
      (h : Stmt.AppliesAll P members members') :
      Stmt.Applies P (.classDecl s name members) (.classDecl s' name members')
  | property {s s' : Span} {form : PropertyForm} {decl decl' : Procedure} {isDefault : Bool}
      (h : decl.Applies P decl') :
      Stmt.Applies P (.property s form decl isDefault) (.property s' form decl' isDefault)
  | branch {s s' : Span} {cond cond' : Expr} {thenBody thenBody' elseBody elseBody' : List Stmt}
      (hcond : cond.AppliesOperand P cond') (hthen : Stmt.AppliesAll P thenBody thenBody')
      (helse : Stmt.AppliesAll P elseBody elseBody') :
      Stmt.Applies P (.branch s cond thenBody elseBody) (.branch s' cond' thenBody' elseBody')
  | loop {s s' : Span} {cond cond' : Expr} {body body' : List Stmt} {untilTrue testsAfter : Bool}
      (hcond : cond.AppliesOperand P cond') (h : Stmt.AppliesAll P body body') :
      Stmt.Applies P (.loop s cond body untilTrue testsAfter)
        (.loop s' cond' body' untilTrue testsAfter)
  | count {s s' : Span} {var : Name} {first first' last last' step step' : Expr}
      {body body' : List Stmt} (hfirst : first.AppliesOperand P first')
      (hlast : last.AppliesOperand P last') (hstep : step.AppliesOperand P step')
      (h : Stmt.AppliesAll P body body') :
      Stmt.Applies P (.count s var first last step body) (.count s' var first' last' step' body')
  | forEach {s s' : Span} {var : Name} {collection collection' : Expr} {body body' : List Stmt}
      (hcollection : collection.AppliesOperand P collection') (h : Stmt.AppliesAll P body body') :
      Stmt.Applies P (.forEach s var collection body) (.forEach s' var collection' body')
  | select {s s' : Span} {subject subject' : Expr} {cases cases' : List Case}
      (hsubject : subject.AppliesOperand P subject') (h : Stmt.AppliesCases P cases cases') :
      Stmt.Applies P (.select s subject cases) (.select s' subject' cases')
  | withObject {s s' : Span} {object object' : Expr} {body body' : List Stmt}
      (hobject : object.AppliesOperand P object') (h : Stmt.AppliesAll P body body') :
      Stmt.Applies P (.withObject s object body) (.withObject s' object' body')
  | exit {s s' : Span} {kind : ExitTarget} : Stmt.Applies P (.exit s kind) (.exit s' kind)
  | onError {s s' : Span} {kind : ErrorPolicy} : Stmt.Applies P (.onError s kind) (.onError s' kind)
  | optionExplicit {s s' : Span} {on : Bool} :
      Stmt.Applies P (.optionExplicit s on) (.optionExplicit s' on)
  | attached {s s' : Span} {directive : Include} {body body' : List Stmt}
      (h : Stmt.AppliesAll P body body') :
      Stmt.Applies P (.includeFile s directive (some body)) (.includeFile s' directive (some body'))
  | unattached {s s' : Span} {directive : Include} :
      Stmt.Applies P (.includeFile s directive none) (.includeFile s' directive none)

/-- The same statements, one by one. -/
inductive Stmt.AppliesAll (P : Expr → Prop) : List Stmt → List Stmt → Prop
  | nil : Stmt.AppliesAll P [] []
  | cons {stmt stmt' : Stmt} {rest rest' : List Stmt} (h : Stmt.Applies P stmt stmt')
      (hrest : Stmt.AppliesAll P rest rest') : Stmt.AppliesAll P (stmt :: rest) (stmt' :: rest')

/-- The same cases, one by one. -/
inductive Stmt.AppliesCases (P : Expr → Prop) : List Case → List Case → Prop
  | nil : Stmt.AppliesCases P [] []
  | otherwise {body body' : List Stmt} {rest rest' : List Case} (h : Stmt.AppliesAll P body body')
      (hrest : Stmt.AppliesCases P rest rest') :
      Stmt.AppliesCases P (.mk none body :: rest) (.mk none body' :: rest')
  | cons {conditions conditions' : List Expr} {body body' : List Stmt} {rest rest' : List Case}
      (hconditions : Expr.AppliesOperands P conditions conditions')
      (h : Stmt.AppliesAll P body body') (hrest : Stmt.AppliesCases P rest rest') :
      Stmt.AppliesCases P (.mk (some conditions) body :: rest) (.mk (some conditions') body' :: rest')

/-- The same procedure, up to its body. -/
inductive Procedure.Applies (P : Expr → Prop) : Procedure → Procedure → Prop
  | intro {name : Name} {kind : ProcedureForm} {params : List Param} {body body' : List Stmt}
      {access : Access} (h : Stmt.AppliesAll P body body') :
      Procedure.Applies P (.mk name kind params body access) (.mk name kind params body' access)

end

namespace Expr

theorem Applies.isReference_eq {e e' : Expr} (h : e.Applies P e') :
    e.isReference = e'.isReference := by
  cases h <;> rfl

theorem Applies.isPlace_eq {e e' : Expr} (h : e.Applies P e') : e.isPlace = e'.isPlace := by
  cases h <;> rfl

/-- A reference and a call are both places. -/
theorem AppliesOperand.isPlace_eq {e e' : Expr} (h : e.AppliesOperand P e') :
    e.isPlace = e'.isPlace := by
  cases h with
  | same h => exact h.isPlace_eq
  | applied _ reference _ => cases e <;> first | rfl | cases reference

theorem AppliesArgs.length_eq : ∀ {args args' : List Arg}, AppliesArgs P args args' →
    args.length = args'.length
  | _, _, .nil => rfl
  | _, _, .cons _ hrest => congrArg (· + 1) hrest.length_eq

mutual

theorem Applies.refl : ∀ e : Expr, e.Applies P e
  | .literal _ _ => .literal
  | .var _ _ => .var
  | .member _ object _ => .member (.same (Applies.refl object))
  | .withMember _ _ => .withMember
  | .call _ callee args => .call (Applies.refl callee) (AppliesArgs.refl args)
  | .create _ _ => .create
  | .binary _ op left right =>
    if h : op = .is then h ▸ .is (Applies.refl left) (Applies.refl right)
    else .binary h (.same (Applies.refl left)) (.same (Applies.refl right))
  | .unary _ _ e => .unary (.same (Applies.refl e))

theorem AppliesArgs.refl : ∀ args : List Arg, AppliesArgs P args args
  | [] => .nil
  | .mk value _ :: rest => .cons (.same (Applies.refl value)) (AppliesArgs.refl rest)

end

theorem AppliesOperand.refl (e : Expr) : e.AppliesOperand P e := .same (.refl e)

theorem AppliesOperands.refl : ∀ es : List Expr, AppliesOperands P es es
  | [] => .nil
  | e :: rest => .cons (.refl e) (AppliesOperands.refl rest)

end Expr

mutual

theorem Stmt.Applies.refl : ∀ stmt : Stmt, stmt.Applies P stmt
  | .block _ body => .block (Stmt.AppliesAll.refl body)
  | .assign _ target value => .assign (.refl target) (.refl value)
  | .call _ e => .call (.refl e)
  | .const .. => .const
  | .dim .. => .dim
  | .redim _ _ bounds _ => .redim (.refl bounds)
  | .procedure _ decl => .procedure (Procedure.Applies.refl decl)
  | .classDecl _ _ members => .classDecl (Stmt.AppliesAll.refl members)
  | .property _ _ decl _ => .property (Procedure.Applies.refl decl)
  | .branch _ cond thenBody elseBody =>
    .branch (.refl cond) (Stmt.AppliesAll.refl thenBody) (Stmt.AppliesAll.refl elseBody)
  | .loop _ cond body _ _ => .loop (.refl cond) (Stmt.AppliesAll.refl body)
  | .count _ _ first last step body =>
    .count (.refl first) (.refl last) (.refl step) (Stmt.AppliesAll.refl body)
  | .forEach _ _ collection body => .forEach (.refl collection) (Stmt.AppliesAll.refl body)
  | .select _ subject cases => .select (.refl subject) (Stmt.AppliesCases.refl cases)
  | .withObject _ object body => .withObject (.refl object) (Stmt.AppliesAll.refl body)
  | .exit .. => .exit
  | .onError .. => .onError
  | .optionExplicit .. => .optionExplicit
  | .includeFile _ _ (some body) => .attached (Stmt.AppliesAll.refl body)
  | .includeFile _ _ none => .unattached

theorem Stmt.AppliesAll.refl : ∀ body : List Stmt, Stmt.AppliesAll P body body
  | [] => .nil
  | stmt :: rest => .cons (Stmt.Applies.refl stmt) (Stmt.AppliesAll.refl rest)

theorem Stmt.AppliesCases.refl : ∀ cases : List Case, Stmt.AppliesCases P cases cases
  | [] => .nil
  | .mk none body :: rest => .otherwise (Stmt.AppliesAll.refl body) (Stmt.AppliesCases.refl rest)
  | .mk (some conditions) body :: rest =>
    .cons (.refl conditions) (Stmt.AppliesAll.refl body) (Stmt.AppliesCases.refl rest)

theorem Procedure.Applies.refl : ∀ decl : Procedure, decl.Applies P decl
  | .mk _ _ _ body _ => .intro (Stmt.AppliesAll.refl body)

end

end PageScript
