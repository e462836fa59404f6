import PageScript.Proofs.Syntax.Nesting

/-!
# Proofs/Syntax/Tree/Spans — trees whose spans nest

`e.Lies lo hi` says that an expression lies in the bytes `lo..hi`, and each part of it in the bytes of
the expression; `stmt.Lies lo hi` says so of a statement with its expressions and the statements of
its bodies, which follow one another without overlap.  There is one rule for each way in which the
readers make a span.
-/

namespace PageScript

/-- A span lies in a range of bytes. -/
structure Span.Lies (s : Span) (lo hi : Nat) : Prop where
  start : lo ≤ s.start
  order : s.start ≤ s.stop
  stop : s.stop ≤ hi

theorem Span.Lies.mono {s : Span} {lo lo' hi hi' : Nat} (h : s.Lies lo hi) (hlo : lo' ≤ lo)
    (hhi : hi ≤ hi') : s.Lies lo' hi' :=
  ⟨Nat.le_trans hlo h.start, h.order, Nat.le_trans h.stop hhi⟩

/-- A span from the start of one to the end of another one further on. -/
theorem Span.merge_eq {s t : Span} (start : s.start ≤ t.start) (stop : s.stop ≤ t.stop) :
    s.merge t = ⟨s.start, t.stop⟩ := by
  rw [merge, Nat.min_eq_left start, Nat.max_eq_right stop]

/-- From one span to another one behind it. -/
theorem Span.Lies.merge_eq {s t : Span} {lo mid hi : Nat} (h : s.Lies lo mid) (h' : t.Lies mid hi) :
    s.merge t = ⟨s.start, t.stop⟩ :=
  Span.merge_eq (Nat.le_trans h.order (Nat.le_trans h.stop h'.start))
    (Nat.le_trans h.stop (Nat.le_trans h'.start h'.order))

theorem Span.Lies.merge {s t : Span} {lo mid hi : Nat} (h : s.Lies lo mid) (h' : t.Lies mid hi) :
    (s.merge t).Lies lo hi := by
  rw [h.merge_eq h']
  refine ⟨h.start, ?_, h'.stop⟩
  exact Nat.le_trans h.order (Nat.le_trans h.stop (Nat.le_trans h'.start h'.order))

/-- Both lie in what they are merged to. -/
theorem Span.le_merge (s t : Span) : (s.merge t).start ≤ s.start ∧ (s.merge t).start ≤ t.start ∧
    s.stop ≤ (s.merge t).stop ∧ t.stop ≤ (s.merge t).stop :=
  ⟨Nat.min_le_left _ _, Nat.min_le_right _ _, Nat.le_max_left _ _, Nat.le_max_right _ _⟩

/-! ## Expressions -/

/-- The expressions that an expression is made of. -/
def Expr.parts : Expr → List Expr
  | member _ object _ => [object]
  | call _ callee args => callee :: args.map Arg.value
  | binary _ _ left right => [left, right]
  | unary _ _ e => [e]
  | literal .. | var .. | withMember .. | create .. => []

/-- An expression lies in a range of bytes, and its parts lie in its own, at every depth. -/
inductive Expr.Lies : (lo hi : Nat) → Expr → Prop
  | intro {lo hi : Nat} {e : Expr} (here : e.span.Lies lo hi)
    (parts : ∀ part ∈ e.parts, Lies e.span.start e.span.stop part) : Lies lo hi e

/-- An argument lies where its value does. -/
abbrev Arg.Lies (lo hi : Nat) (arg : Arg) : Prop := arg.value.Lies lo hi

namespace Expr.Lies

variable {lo lo' mid hi hi' : Nat} {e : Expr} {s : Span}

theorem here (h : e.Lies lo hi) : e.span.Lies lo hi := by
  cases h with
  | intro here _ => exact here

theorem inside (h : e.Lies lo hi) : ∀ part ∈ e.parts, part.Lies e.span.start e.span.stop := by
  cases h with
  | intro _ parts => exact parts

theorem mono (h : e.Lies lo hi) (hlo : lo' ≤ lo) (hhi : hi ≤ hi') : e.Lies lo' hi' :=
  .intro (h.here.mono hlo hhi) h.inside

/-- An expression lies in its own bytes. -/
theorem self (h : e.Lies lo hi) : e.Lies e.span.start e.span.stop :=
  .intro ⟨Nat.le_refl _, h.here.order, Nat.le_refl _⟩ h.inside

theorem leaf (here : e.span.Lies lo hi) (none : e.parts = []) : e.Lies lo hi :=
  .intro here fun _ h => nomatch none ▸ h

/-- With the bytes around it, such as those of parentheses, it still covers its parts. -/
theorem withSpan (h : e.Lies s.start s.stop) (here : s.Lies lo hi) : (e.withSpan s).Lies lo hi := by
  have parts : (e.withSpan s).parts = e.parts := by cases e <;> rfl
  refine .intro (by rwa [span_withSpan]) fun part hpart => ?_
  rw [span_withSpan]
  exact (h.inside part (parts ▸ hpart)).mono h.here.start h.here.stop

/-- From the start of the left operand to the end of the right one. -/
theorem join {op : BinaryOp} {left right : Expr} (hleft : left.Lies lo mid)
    (hright : right.Lies mid hi) : (Expr.join op left right).Lies lo hi := by
  obtain ⟨first, second, first', second'⟩ := left.span.le_merge right.span
  refine .intro (hleft.here.merge hright.here) ?_
  rintro part (_ | ⟨_, _ | ⟨_, ⟨⟩⟩⟩)
  · exact hleft.self.mono first first'
  · exact hright.self.mono second second'

theorem unary {op : UnaryOp} (here : s.Lies lo hi) (h : e.Lies s.start s.stop) :
    (Expr.unary s op e).Lies lo hi :=
  .intro here fun _ hpart => List.mem_singleton.mp hpart ▸ h

theorem member {name : Name} (here : s.Lies lo hi) (h : e.Lies s.start s.stop) :
    (Expr.member s e name).Lies lo hi :=
  .intro here fun _ hpart => List.mem_singleton.mp hpart ▸ h

theorem call {args : List Arg} (here : s.Lies lo hi) (h : e.Lies s.start s.stop)
    (hargs : ∀ arg ∈ args, arg.Lies s.start s.stop) : (Expr.call s e args).Lies lo hi :=
  .intro here (List.forall_mem_cons.mpr ⟨h, List.forall_mem_map.mpr hargs⟩)

/-- The callee and the arguments of a call. -/
theorem of_call {args : List Arg} (h : (Expr.call s e args).Lies lo hi) :
    s.Lies lo hi ∧ e.Lies s.start s.stop ∧ ∀ arg ∈ args, arg.Lies s.start s.stop := by
  obtain ⟨callee, rest⟩ := List.forall_mem_cons.mp h.inside
  exact ⟨h.here, callee, fun arg harg => rest arg.value (List.mem_map_of_mem harg)⟩

end Expr.Lies

/-! ## Statements -/

namespace Stmt

/-- The expressions that a statement is made of, those inside its bodies apart. -/
def exprs : Stmt → List Expr
  | assign _ target value => [target, value]
  | call _ e => [e]
  | redim _ _ bounds _ => bounds
  | branch _ cond _ _ | loop _ cond _ _ _ => [cond]
  | count _ _ first last step _ => [first, last, step]
  | forEach _ _ e _ | withObject _ e _ => [e]
  | select _ subject cases => subject :: cases.flatMap (·.conditions.getD [])
  | block .. | const .. | dim .. | procedure .. | classDecl .. | property .. | exit .. | onError ..
  | optionExplicit .. | includeFile .. => []

/-- Statements follow one another in the source. -/
def InOrder (body : List Stmt) : Prop := body.Pairwise fun s t => s.span.stop ≤ t.span.start

/-- A statement lies in a range of bytes; its expressions and the statements of its bodies lie in its
own, at every depth, and the statements of each body follow one another. -/
inductive Lies : (lo hi : Nat) → Stmt → Prop
  | intro {lo hi : Nat} {stmt : Stmt} (here : stmt.span.Lies lo hi)
    (exprs : ∀ e ∈ stmt.exprs, e.Lies stmt.span.start stmt.span.stop)
    (bodies : ∀ body ∈ stmt.bodies, ∀ inner ∈ body, Lies stmt.span.start stmt.span.stop inner)
    (order : ∀ body ∈ stmt.bodies, InOrder body) : Lies lo hi stmt

namespace Lies

variable {lo lo' hi hi' : Nat} {stmt : Stmt}

theorem here (h : stmt.Lies lo hi) : stmt.span.Lies lo hi := by
  cases h with
  | intro here _ _ _ => exact here

theorem exprs (h : stmt.Lies lo hi) : ∀ e ∈ stmt.exprs, e.Lies stmt.span.start stmt.span.stop := by
  cases h with
  | intro _ exprs _ _ => exact exprs

theorem bodies (h : stmt.Lies lo hi) :
    ∀ body ∈ stmt.bodies, ∀ inner ∈ body, inner.Lies stmt.span.start stmt.span.stop := by
  cases h with
  | intro _ _ bodies _ => exact bodies

theorem order (h : stmt.Lies lo hi) : ∀ body ∈ stmt.bodies, InOrder body := by
  cases h with
  | intro _ _ _ order => exact order

theorem mono (h : stmt.Lies lo hi) (hlo : lo' ≤ lo) (hhi : hi ≤ hi') : stmt.Lies lo' hi' :=
  .intro (h.here.mono hlo hhi) h.exprs h.bodies h.order

end Lies

end Stmt

/-! ## Rows -/

/-- Things that lie in a range of bytes one behind another. -/
inductive InRow {α : Type} (P : (lo hi : Nat) → α → Prop) : (lo hi : Nat) → List α → Prop
  | nil {lo hi : Nat} (le : lo ≤ hi) : InRow P lo hi []
  | cons {lo mid next hi : Nat} {a : α} {as : List α} (first : P lo mid a) (le : lo ≤ mid)
    (gap : mid ≤ next) (rest : InRow P next hi as) : InRow P lo hi (a :: as)

namespace InRow

variable {α : Type} {P : (lo hi : Nat) → α → Prop} {lo mid hi : Nat} {a : α} {as : List α}

theorem single (first : P lo mid a) (le : lo ≤ mid) : InRow P lo mid [a] :=
  .cons first le (Nat.le_refl mid) (.nil (Nat.le_refl mid))

theorem le (h : InRow P lo hi as) : lo ≤ hi := by
  induction h with
  | nil le => exact le
  | cons _ le gap _ ih => exact Nat.le_trans le (Nat.le_trans gap ih)

/-- Each of them lies in the whole range. -/
theorem forall_mem (h : InRow P lo hi as)
    (mono : ∀ {a lo lo' hi hi'}, P lo hi a → lo' ≤ lo → hi ≤ hi' → P lo' hi' a) :
    ∀ a ∈ as, P lo hi a := by
  induction h with
  | nil => exact nofun
  | cons first le gap rest ih =>
    refine List.forall_mem_cons.mpr ⟨mono first (Nat.le_refl _) (Nat.le_trans gap rest.le), ?_⟩
    exact fun a ha => mono (ih a ha) (Nat.le_trans le gap) (Nat.le_refl _)

/-- They lie in any range that starts earlier. -/
theorem widen {lo' : Nat} (h : InRow P lo hi as) (le : lo' ≤ lo)
    (mono : ∀ {a lo lo' hi hi'}, P lo hi a → lo' ≤ lo → hi ≤ hi' → P lo' hi' a) :
    InRow P lo' hi as := by
  cases h with
  | nil le' => exact .nil (Nat.le_trans le le')
  | cons first le' gap rest =>
    exact .cons (mono first le (Nat.le_refl _)) (Nat.le_trans le le') gap rest

theorem imp {Q : (lo hi : Nat) → α → Prop} (hPQ : ∀ {lo hi a}, P lo hi a → Q lo hi a)
    (h : InRow P lo hi as) : InRow Q lo hi as := by
  induction h with
  | nil le => exact .nil le
  | cons first le gap _ ih => exact .cons (hPQ first) le gap ih

/-- Statements in a row follow one another. -/
theorem inOrder {body : List Stmt} (h : InRow Stmt.Lies lo hi body) : Stmt.InOrder body := by
  induction h with
  | nil => exact .nil
  | @cons lo mid next hi stmt rest first _ gap more ih =>
    refine .cons (fun other hother => ?_) ih
    have behind := more.forall_mem Stmt.Lies.mono other hother
    exact Nat.le_trans first.here.stop (Nat.le_trans gap behind.here.start)

end InRow

end PageScript
