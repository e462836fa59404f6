import PageScript.Proofs.Syntax.Program.Blocks

/-!
# Proofs/Syntax/Abreast/Sight — what is seen of the places in a tree

Two readings of one program may place what they read at different bytes.  A `Sight` says how much of
a place is looked at: all of it (`Sight.sharp`) or nothing (`Sight.blind`).  Trees that look the same
with the one are the same trees, with the other the same trees up to their places.
-/

namespace PageScript

/-- A way to look at spans under which a merged span looks as its parts make it look. -/
structure Sight where
  of : Span → Span
  merge : ∀ {s s' t t' : Span}, of s = of s' → of t = of t' → of (s.merge t) = of (s'.merge t')

namespace Sight

/-- Spans as they are. -/
def sharp : Sight := ⟨id, congrArg₂ Span.merge⟩

/-- All spans alike. -/
def blind : Sight := ⟨fun _ => .origin, fun _ _ => rfl⟩

end Sight

/-! ## Trees as they are seen -/

variable (V : Sight)

mutual

/-- An expression as it is seen. -/
def Expr.seen : Expr → Expr
  | .literal s value => .literal (V.of s) value
  | .var s name => .var (V.of s) name
  | .member s object name => .member (V.of s) object.seen name
  | .withMember s name => .withMember (V.of s) name
  | .call s callee args => .call (V.of s) callee.seen (Expr.seenArgs args)
  | .create s path => .create (V.of s) path
  | .binary s op left right => .binary (V.of s) op left.seen right.seen
  | .unary s op operand => .unary (V.of s) op operand.seen

/-- Arguments as they are seen. -/
def Expr.seenArgs : List Arg → List Arg
  | [] => []
  | arg :: rest => arg.seen :: Expr.seenArgs rest

/-- An argument as it is seen. -/
def Arg.seen : Arg → Arg
  | .mk value byValue => .mk value.seen byValue

end

mutual

/-- A statement as it is seen. -/
def Stmt.seen : Stmt → Stmt
  | .block s body => .block (V.of s) (Stmt.seenAll body)
  | .assign s target value => .assign (V.of s) (target.seen V) (value.seen V)
  | .call s call => .call (V.of s) (call.seen V)
  | .const s name value => .const (V.of s) name value
  | .dim s name bounds access => .dim (V.of s) name bounds access
  | .redim s name bounds preserve => .redim (V.of s) name (bounds.map (Expr.seen V)) preserve
  | .procedure s decl => .procedure (V.of s) decl.seen
  | .classDecl s name members => .classDecl (V.of s) name (Stmt.seenAll members)
  | .property s kind decl isDefault => .property (V.of s) kind decl.seen isDefault
  | .branch s cond thenBody elseBody =>
    .branch (V.of s) (cond.seen V) (Stmt.seenAll thenBody) (Stmt.seenAll elseBody)
  | .loop s cond body untilTrue testsAfter =>
    .loop (V.of s) (cond.seen V) (Stmt.seenAll body) untilTrue testsAfter
  | .count s var first last step body =>
    .count (V.of s) var (first.seen V) (last.seen V) (step.seen V) (Stmt.seenAll body)
  | .forEach s var collection body =>
    .forEach (V.of s) var (collection.seen V) (Stmt.seenAll body)
  | .select s subject cases => .select (V.of s) (subject.seen V) (Stmt.seenCases cases)
  | .withObject s object body => .withObject (V.of s) (object.seen V) (Stmt.seenAll body)
  | .exit s kind => .exit (V.of s) kind
  | .onError s kind => .onError (V.of s) kind
  | .optionExplicit s on => .optionExplicit (V.of s) on
  | .includeFile s directive none => .includeFile (V.of s) directive none
  | .includeFile s directive (some body) =>
    .includeFile (V.of s) directive (some (Stmt.seenAll body))

/-- Statements as they are seen. -/
def Stmt.seenAll : List Stmt → List Stmt
  | [] => []
  | stmt :: rest => stmt.seen :: Stmt.seenAll rest

/-- Cases as they are seen. -/
def Stmt.seenCases : List Case → List Case
  | [] => []
  | found :: rest => found.seen :: Stmt.seenCases rest

/-- A case as it is seen. -/
def Case.seen : Case → Case
  | .mk none body => .mk none (Stmt.seenAll body)
  | .mk (some conditions) body => .mk (some (conditions.map (Expr.seen V))) (Stmt.seenAll body)

/-- A procedure as it is seen. -/
def Procedure.seen : Procedure → Procedure
  | .mk name kind params body access => .mk name kind params (Stmt.seenAll body) access

end

variable {V : Sight}

@[simp] theorem Expr.span_seen (e : Expr) : (e.seen V).span = V.of e.span := by
  cases e <;> rfl

theorem Expr.seen_withSpan (s : Span) (e : Expr) :
    (e.withSpan s).seen V = (e.seen V).withSpan (V.of s) := by
  cases e <;> rfl

theorem Stmt.seen_withSpan (s : Span) (stmt : Stmt) :
    (stmt.withSpan s).seen V = (stmt.seen V).withSpan (V.of s) := by
  cases stmt with
  | includeFile _ _ attached => cases attached <;> rfl
  | _ => rfl

theorem Expr.seenArgs_eq_map (args : List Arg) : Expr.seenArgs V args = args.map (Arg.seen V) := by
  induction args with
  | nil => rfl
  | cons arg rest ih => exact congrArg (arg.seen V :: ·) ih

theorem Stmt.seenAll_eq_map (body : List Stmt) : Stmt.seenAll V body = body.map (Stmt.seen V) := by
  induction body with
  | nil => rfl
  | cons stmt rest ih => exact congrArg (stmt.seen V :: ·) ih

/-! ## All of a place, or nothing -/

mutual

theorem Expr.seen_sharp : ∀ e : Expr, e.seen .sharp = e
  | .literal .. | .var .. | .withMember .. | .create .. => rfl
  | .member s object name => congrArg (Expr.member s · name) object.seen_sharp
  | .call s callee args => congrArg₂ (Expr.call s) callee.seen_sharp (Expr.seenArgs_sharp args)
  | .binary s op left right => congrArg₂ (Expr.binary s op) left.seen_sharp right.seen_sharp
  | .unary s op operand => congrArg (Expr.unary s op) operand.seen_sharp

theorem Expr.seenArgs_sharp : ∀ args : List Arg, Expr.seenArgs .sharp args = args
  | [] => rfl
  | .mk value byValue :: rest =>
    congrArg₂ List.cons (congrArg (Arg.mk · byValue) value.seen_sharp) (Expr.seenArgs_sharp rest)

end

mutual

theorem Expr.seen_blind : ∀ e : Expr, e.seen .blind = e.unplaced
  | .literal .. | .var .. | .withMember .. | .create .. => rfl
  | .member _ object name => congrArg (Expr.member .origin · name) object.seen_blind
  | .call _ callee args => congrArg₂ (Expr.call .origin) callee.seen_blind (Expr.seenArgs_blind args)
  | .binary _ op left right => congrArg₂ (Expr.binary .origin op) left.seen_blind right.seen_blind
  | .unary _ op operand => congrArg (Expr.unary .origin op) operand.seen_blind

theorem Expr.seenArgs_blind : ∀ args : List Arg, Expr.seenArgs .blind args = Expr.unplacedArgs args
  | [] => rfl
  | .mk value byValue :: rest =>
    congrArg₂ List.cons (congrArg (Arg.mk · byValue) value.seen_blind) (Expr.seenArgs_blind rest)

end

theorem Expr.map_seen_sharp (es : List Expr) : es.map (Expr.seen .sharp) = es :=
  (List.map_congr_left fun e _ => e.seen_sharp).trans (List.map_id es)

theorem Expr.map_seen_blind (es : List Expr) :
    es.map (Expr.seen .blind) = es.map Expr.unplaced :=
  List.map_congr_left fun e _ => e.seen_blind

mutual

theorem Stmt.seen_sharp : ∀ stmt : Stmt, stmt.seen .sharp = stmt
  | .const .. | .dim .. | .exit .. | .onError .. | .optionExplicit .. | .includeFile _ _ none => rfl
  | .block s body => congrArg (Stmt.block s) (Stmt.seenAll_sharp body)
  | .assign s target value => congrArg₂ (Stmt.assign s) target.seen_sharp value.seen_sharp
  | .call s call => congrArg (Stmt.call s) call.seen_sharp
  | .redim s name bounds preserve =>
    congrArg (Stmt.redim s name · preserve) (Expr.map_seen_sharp bounds)
  | .procedure s decl => congrArg (Stmt.procedure s) decl.seen_sharp
  | .classDecl s name members => congrArg (Stmt.classDecl s name) (Stmt.seenAll_sharp members)
  | .property s kind decl isDefault => congrArg (Stmt.property s kind · isDefault) decl.seen_sharp
  | .branch s cond thenBody elseBody => by
    rw [Stmt.seen, cond.seen_sharp, Stmt.seenAll_sharp thenBody, Stmt.seenAll_sharp elseBody]
    rfl
  | .loop s cond body untilTrue testsAfter => by
    rw [Stmt.seen, cond.seen_sharp, Stmt.seenAll_sharp body]
    rfl
  | .count s var first last step body => by
    rw [Stmt.seen, first.seen_sharp, last.seen_sharp, step.seen_sharp, Stmt.seenAll_sharp body]
    rfl
  | .forEach s var collection body =>
    congrArg₂ (Stmt.forEach s var) collection.seen_sharp (Stmt.seenAll_sharp body)
  | .select s subject cases =>
    congrArg₂ (Stmt.select s) subject.seen_sharp (Stmt.seenCases_sharp cases)
  | .withObject s object body =>
    congrArg₂ (Stmt.withObject s) object.seen_sharp (Stmt.seenAll_sharp body)
  | .includeFile s directive (some body) =>
    congrArg (Stmt.includeFile s directive ∘ some) (Stmt.seenAll_sharp body)

theorem Stmt.seenAll_sharp : ∀ body : List Stmt, Stmt.seenAll .sharp body = body
  | [] => rfl
  | stmt :: rest => congrArg₂ List.cons stmt.seen_sharp (Stmt.seenAll_sharp rest)

theorem Stmt.seenCases_sharp : ∀ cases : List Case, Stmt.seenCases .sharp cases = cases
  | [] => rfl
  | found :: rest => congrArg₂ List.cons found.seen_sharp (Stmt.seenCases_sharp rest)

theorem Case.seen_sharp : ∀ found : Case, found.seen .sharp = found
  | .mk none body => congrArg (Case.mk none) (Stmt.seenAll_sharp body)
  | .mk (some conditions) body =>
    congrArg₂ (Case.mk ∘ some) (Expr.map_seen_sharp conditions) (Stmt.seenAll_sharp body)

theorem Procedure.seen_sharp : ∀ decl : Procedure, decl.seen .sharp = decl
  | .mk name kind params body access =>
    congrArg (Procedure.mk name kind params · access) (Stmt.seenAll_sharp body)

end

mutual

theorem Stmt.seen_blind : ∀ stmt : Stmt, stmt.seen .blind = stmt.unplaced
  | .const .. | .dim .. | .exit .. | .onError .. | .optionExplicit .. | .includeFile _ _ none => rfl
  | .block s body => congrArg (Stmt.block .origin) (Stmt.seenAll_blind body)
  | .assign s target value => congrArg₂ (Stmt.assign .origin) target.seen_blind value.seen_blind
  | .call s call => congrArg (Stmt.call .origin) call.seen_blind
  | .redim s name bounds preserve =>
    congrArg (Stmt.redim .origin name · preserve) (Expr.map_seen_blind bounds)
  | .procedure s decl => congrArg (Stmt.procedure .origin) decl.seen_blind
  | .classDecl s name members => congrArg (Stmt.classDecl .origin name) (Stmt.seenAll_blind members)
  | .property s kind decl isDefault =>
    congrArg (Stmt.property .origin kind · isDefault) decl.seen_blind
  | .branch s cond thenBody elseBody => by
    rw [Stmt.seen, Stmt.unplaced, cond.seen_blind, Stmt.seenAll_blind thenBody,
      Stmt.seenAll_blind elseBody]
    rfl
  | .loop s cond body untilTrue testsAfter => by
    rw [Stmt.seen, Stmt.unplaced, cond.seen_blind, Stmt.seenAll_blind body]
    rfl
  | .count s var first last step body => by
    rw [Stmt.seen, Stmt.unplaced, first.seen_blind, last.seen_blind, step.seen_blind,
      Stmt.seenAll_blind body]
    rfl
  | .forEach s var collection body =>
    congrArg₂ (Stmt.forEach .origin var) collection.seen_blind (Stmt.seenAll_blind body)
  | .select s subject cases =>
    congrArg₂ (Stmt.select .origin) subject.seen_blind (Stmt.seenCases_blind cases)
  | .withObject s object body =>
    congrArg₂ (Stmt.withObject .origin) object.seen_blind (Stmt.seenAll_blind body)
  | .includeFile s directive (some body) =>
    congrArg (Stmt.includeFile .origin directive ∘ some) (Stmt.seenAll_blind body)

theorem Stmt.seenAll_blind : ∀ body : List Stmt, Stmt.seenAll .blind body = Stmt.unplacedAll body
  | [] => rfl
  | stmt :: rest => congrArg₂ List.cons stmt.seen_blind (Stmt.seenAll_blind rest)

theorem Stmt.seenCases_blind : ∀ cases : List Case,
    Stmt.seenCases .blind cases = Stmt.unplacedCases cases
  | [] => rfl
  | found :: rest => congrArg₂ List.cons found.seen_blind (Stmt.seenCases_blind rest)

theorem Case.seen_blind : ∀ found : Case, found.seen .blind = found.unplaced
  | .mk none body => congrArg (Case.mk none) (Stmt.seenAll_blind body)
  | .mk (some conditions) body =>
    congrArg₂ (Case.mk ∘ some) (Expr.map_seen_blind conditions) (Stmt.seenAll_blind body)

theorem Procedure.seen_blind : ∀ decl : Procedure, decl.seen .blind = decl.unplaced
  | .mk name kind params body access =>
    congrArg (Procedure.mk name kind params · access) (Stmt.seenAll_blind body)

end

end PageScript
