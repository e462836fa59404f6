import PageScript.Proofs.Syntax.Display.Words

/-!
# Proofs/Syntax/Display/Expressions — an expression is determined by its display

An expression is shown as a bracketed tree (`Expr.toList_display`).  If its names are names and its numbers
are finite, as in everything that is read from a source (`Expr.IsShown`), then the words of the tree are
proper, and the tree determines the expression up to what it leaves out: the spans and the marks of the
arguments (`Expr.shape_eq_of_display_eq`).
-/

namespace PageScript

/-- Lists that look the same in one way look the same in another one, if their elements do. -/
theorem map_eq_of_map_eq {α β γ : Type} {f : α → β} {g : α → γ} : ∀ {as bs : List α},
    (∀ a ∈ as, ∀ b ∈ bs, f a = f b → g a = g b) → as.map f = bs.map f → as.map g = bs.map g
  | [], [], _, _ => rfl
  | a :: as, b :: bs, h, same => by
    obtain ⟨first, further⟩ := List.cons.inj same
    exact congrArg₂ List.cons (h a List.mem_cons_self b List.mem_cons_self first)
      (map_eq_of_map_eq (fun a ha b hb => h a (List.mem_cons_of_mem _ ha) b (List.mem_cons_of_mem _ hb))
        further)

/-! ## What is shown -/

mutual

/-- What the display of an expression shows: no spans and no marks of arguments. -/
def Expr.shape : Expr → Expr
  | .literal _ value => .literal .origin value
  | .var _ name => .var .origin name
  | .member _ object name => .member .origin object.shape name
  | .withMember _ name => .withMember .origin name
  | .call _ callee args => .call .origin callee.shape (Expr.shapes args)
  | .create _ path => .create .origin path
  | .binary _ op left right => .binary .origin op left.shape right.shape
  | .unary _ op operand => .unary .origin op operand.shape

/-- What is shown of arguments. -/
def Expr.shapes : List Arg → List Arg
  | [] => []
  | arg :: rest => arg.shape :: Expr.shapes rest

/-- What is shown of an argument. -/
def Arg.shape : Arg → Arg
  | .mk value _ => .mk value.shape false

end

mutual

/-- An expression as a tree. -/
def Expr.tree : Expr → Tree
  | .literal _ value => value.tree
  | .var _ name => .word name.text
  | .member _ object name => .round [.word ".", object.tree, .word name.text]
  | .withMember _ name => .round [.word ".", .word name.text]
  | .call _ callee args => .round (.word "call" :: callee.tree :: Expr.trees args)
  | .create _ path => .round [.word "new", .word (dotted path)]
  | .binary _ op left right => .round [.word op.spelling, left.tree, right.tree]
  | .unary _ op operand => .round [.word op.label, operand.tree]

/-- Arguments as trees. -/
def Expr.trees : List Arg → List Tree
  | [] => []
  | arg :: rest => arg.tree :: Expr.trees rest

/-- An argument as a tree. -/
def Arg.tree : Arg → Tree
  | .mk value _ => value.tree

end

theorem Arg.tree_eq : ∀ arg : Arg, arg.tree = arg.value.tree
  | .mk .. => rfl

theorem Arg.shape_eq : ∀ arg : Arg, arg.shape = .mk arg.value.shape false
  | .mk .. => rfl

theorem Expr.shapes_eq_map (args : List Arg) :
    Expr.shapes args = args.map fun arg => .mk arg.value.shape false := by
  induction args with
  | nil => rfl
  | cons arg rest ih => exact congrArg₂ List.cons arg.shape_eq ih

theorem Expr.trees_eq_map (args : List Arg) : Expr.trees args = args.map fun arg => arg.value.tree := by
  induction args with
  | nil => rfl
  | cons arg rest ih => exact congrArg₂ List.cons arg.tree_eq ih

mutual

/-- The display of an expression is the text of its tree. -/
theorem Expr.toList_display : ∀ e : Expr, e.display.toList = e.tree.print
  | .literal _ value => value.toList_display
  | .var .. | .withMember .. | .create .. => by simp [Expr.display, Expr.tree, dotted]
  | .member _ object _ => by simp [Expr.display, Expr.tree, object.toList_display]
  | .call _ callee args => by
    simp [Expr.display, Expr.tree, callee.toList_display, Expr.toList_displayArgs args]
  | .binary _ _ left right => by
    simp [Expr.display, Expr.tree, left.toList_display, right.toList_display]
  | .unary _ _ operand => by simp [Expr.display, Expr.tree, operand.toList_display]

theorem Expr.toList_displayArgs : ∀ args : List Arg,
    (Expr.displayArgs args).toList = Tree.printFurther (Expr.trees args)
  | [] => rfl
  | .mk value _ :: rest => by
    simp [Expr.displayArgs, Expr.trees, Arg.display, Arg.tree, value.toList_display,
      Expr.toList_displayArgs rest]

end

/-! ## What comes from a source -/

/-- The names of an expression can be written where they stand, and its numbers are finite. -/
inductive Expr.IsShown : Expr → Prop
  | literal {s : Span} {value : Literal} (h : value.IsShown) : IsShown (.literal s value)
  | var {s : Span} {name : Name} (h : name.IsVariable) : IsShown (.var s name)
  | member {s : Span} {object : Expr} {name : Name} (hobject : object.IsShown) (h : name.IsMember) :
      IsShown (.member s object name)
  | withMember {s : Span} {name : Name} (h : name.IsMember) : IsShown (.withMember s name)
  | call {s : Span} {callee : Expr} {args : List Arg} (hcallee : callee.IsShown)
      (hargs : ∀ arg ∈ args, arg.value.IsShown) : IsShown (.call s callee args)
  | create {s : Span} {path : List Name} (some_name : path ≠ []) (h : ∀ name ∈ path, name.IsMember) :
      IsShown (.create s path)
  | binary {s : Span} {op : BinaryOp} {left right : Expr} (hleft : left.IsShown)
      (hright : right.IsShown) : IsShown (.binary s op left right)
  | unary {s : Span} {op : UnaryOp} {operand : Expr} (h : operand.IsShown) :
      IsShown (.unary s op operand)

/-! ## Expressions -/

namespace Expr

/-- The forms of expressions that can be told by the first word of a tree and the number of further
trees. -/
inductive Form where
  | leaf | member | withMember | call | create | binary | unary

/-- The form of an expression. -/
def form : Expr → Form
  | literal .. | var .. => .leaf
  | member .. => .member
  | withMember .. => .withMember
  | call .. => .call
  | create .. => .create
  | binary .. => .binary
  | unary .. => .unary

/-- The form of the expression that is shown as a tree. -/
def formOf : Tree → Form
  | .row .round (.word text :: items) =>
    if text = "call" then .call
    else if text = "." then if items.length = 1 then .withMember else .member
    else if text = "new" then .create
    else if items.length = 1 then .unary else .binary
  | _ => .leaf

theorem formOf_tree (e : Expr) : formOf e.tree = e.form := by
  cases e with
  | literal _ value => cases value <;> rfl
  | binary _ op => cases op <;> rfl
  | unary _ op => cases op <;> rfl
  | _ => rfl

variable {e e' : Expr} {args args' : List Arg}

theorem form_eq (same : e.tree = e'.tree) : e.form = e'.form := by
  rw [← formOf_tree, ← formOf_tree, same]

/-- The words of the tree are proper. -/
theorem IsShown.proper (h : e.IsShown) : e.tree.Proper := by
  induction h with
  | literal h => exact h.proper
  | var h => exact h.1.proper
  | member _ h ih => exact .headed (.of_chars rfl rfl) (.cons ih (.one h.proper))
  | withMember h => exact .headed (.of_chars rfl rfl) (.one h.proper)
  | call _ _ ih ihs =>
    rw [tree, trees_eq_map]
    exact .headed (.of_chars rfl rfl) (.cons ih (.map ihs))
  | create some_name h =>
    exact .headed (.of_chars rfl rfl) (.one (.word (isPlain_dotted some_name h)))
  | binary _ _ ih ih' => exact .headed (BinaryOp.isPlain_spelling _) (.cons ih (.one ih'))
  | unary _ ih => exact .headed (UnaryOp.isPlain_label _) (.one ih)

/-- The tree of the expression is that of no other one, up to what is not shown. -/
def IsTold (e : Expr) : Prop := ∀ {e' : Expr}, e'.IsShown → e.tree = e'.tree → e.shape = e'.shape

theorem shapes_eq (told : ∀ arg ∈ args, arg.value.IsTold) (shown : ∀ arg ∈ args', arg.value.IsShown)
    (same : trees args = trees args') : shapes args = shapes args' := by
  rw [trees_eq_map, trees_eq_map] at same
  rw [shapes_eq_map, shapes_eq_map]
  refine map_eq_of_map_eq (fun arg harg arg' harg' same => ?_) same
  exact congrArg (Arg.mk · false) (told arg harg (shown arg' harg') same)

theorem IsShown.isTold (h : e.IsShown) : e.IsTold := by
  induction h with
  | literal h =>
    intro e' h' same
    have forms := form_eq same
    cases h' with
    | literal h' => exact congrArg (Expr.literal .origin) (Literal.eq_of_tree_eq h h' same)
    | var hname => exact absurd same (Literal.tree_ne h hname)
    | _ => cases forms
  | var hname =>
    intro e' h' same
    have forms := form_eq same
    cases h' with
    | literal h' => exact absurd same.symm (Literal.tree_ne h' hname)
    | var => exact congrArg (Expr.var .origin) (Name.ext (Tree.word.inj same))
    | _ => cases forms
  | member _ _ ih =>
    intro e' h' same
    have forms := form_eq same
    cases h' with
    | member hobject =>
      simp only [tree, Tree.row.injEq, List.cons.injEq, Tree.word.injEq] at same
      obtain ⟨-, -, objects, names, -⟩ := same
      exact congrArg₂ (Expr.member .origin) (ih hobject objects) (Name.ext names)
    | _ => cases forms
  | withMember =>
    intro e' h' same
    have forms := form_eq same
    cases h' with
    | withMember =>
      simp only [tree, Tree.row.injEq, List.cons.injEq, Tree.word.injEq] at same
      obtain ⟨-, -, names, -⟩ := same
      exact congrArg (Expr.withMember .origin) (Name.ext names)
    | _ => cases forms
  | call _ _ ih ihs =>
    intro e' h' same
    have forms := form_eq same
    cases h' with
    | call hcallee hargs =>
      simp only [tree, Tree.row.injEq, List.cons.injEq] at same
      obtain ⟨-, -, callees, args⟩ := same
      exact congrArg₂ (Expr.call .origin) (ih hcallee callees) (shapes_eq ihs hargs args)
    | _ => cases forms
  | create some_name h =>
    intro e' h' same
    have forms := form_eq same
    cases h' with
    | create some_name' h' =>
      simp only [tree, Tree.row.injEq, List.cons.injEq, Tree.word.injEq] at same
      obtain ⟨-, -, paths, -⟩ := same
      exact congrArg (Expr.create .origin) (dotted_inj some_name some_name' h h' paths)
    | _ => cases forms
  | @binary _ op _ _ _ _ ih ih' =>
    intro e' h' same
    have forms := form_eq same
    cases h' with
    | binary hleft hright =>
      simp only [tree, Tree.row.injEq, List.cons.injEq, Tree.word.injEq] at same
      obtain ⟨-, ops, lefts, rights, -⟩ := same
      obtain rfl := BinaryOp.spelling_inj ops
      exact congrArg₂ (Expr.binary .origin op) (ih hleft lefts) (ih' hright rights)
    | _ => cases forms
  | @unary _ op _ _ ih =>
    intro e' h' same
    have forms := form_eq same
    cases h' with
    | unary hoperand =>
      simp only [tree, Tree.row.injEq, List.cons.injEq, Tree.word.injEq] at same
      obtain ⟨-, ops, operands, -⟩ := same
      obtain rfl := UnaryOp.label_inj ops
      exact congrArg (Expr.unary .origin op) (ih hoperand operands)
    | _ => cases forms

/-- **Expressions are told by their displays**, up to spans and the marks of arguments. -/
theorem shape_eq_of_display_eq (h : e.IsShown) (h' : e'.IsShown) (same : e.display = e'.display) :
    e.shape = e'.shape := by
  refine h.isTold h' (Tree.eq_of_print_eq h.proper h'.proper ?_)
  rw [← toList_display, ← toList_display, same]

end Expr

end PageScript
