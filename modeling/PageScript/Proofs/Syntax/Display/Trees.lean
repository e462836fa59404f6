import PageScript.Proofs.Syntax.Display.Expressions
import PageScript.Syntax.Stmt.Display

/-!
# Proofs/Syntax/Display/Trees — statements as bracketed trees

The display of a statement is the text of a bracketed tree (`Stmt.toList_display`).  Bodies stand in the
row of their statement behind what it has besides, and what is optional is a word or a row of its own.
-/

namespace PageScript

/-! ## What is shown -/

mutual

/-- What the display of a statement shows: no spans and no marks of arguments. -/
def Stmt.shape : Stmt → Stmt
  | .block _ body => .block .origin (Stmt.shapes body)
  | .assign _ target value => .assign .origin target.shape value.shape
  | .call _ e => .call .origin e.shape
  | .const _ name value => .const .origin name value
  | .dim _ name bounds access => .dim .origin name bounds access
  | .redim _ name bounds preserve => .redim .origin name (bounds.map Expr.shape) preserve
  | .procedure _ decl => .procedure .origin decl.shape
  | .classDecl _ name members => .classDecl .origin name (Stmt.shapes members)
  | .property _ kind decl isDefault => .property .origin kind decl.shape isDefault
  | .branch _ cond thenBody elseBody =>
    .branch .origin cond.shape (Stmt.shapes thenBody) (Stmt.shapes elseBody)
  | .loop _ cond body untilTrue testsAfter =>
    .loop .origin cond.shape (Stmt.shapes body) untilTrue testsAfter
  | .count _ var first last step body =>
    .count .origin var first.shape last.shape step.shape (Stmt.shapes body)
  | .forEach _ var collection body => .forEach .origin var collection.shape (Stmt.shapes body)
  | .select _ subject cases => .select .origin subject.shape (Stmt.shapesOfCases cases)
  | .withObject _ object body => .withObject .origin object.shape (Stmt.shapes body)
  | .exit _ kind => .exit .origin kind
  | .onError _ kind => .onError .origin kind
  | .optionExplicit _ on => .optionExplicit .origin on
  | .includeFile _ directive none => .includeFile .origin directive none
  | .includeFile _ directive (some body) => .includeFile .origin directive (some (Stmt.shapes body))

/-- What is shown of statements. -/
def Stmt.shapes : List Stmt → List Stmt
  | [] => []
  | stmt :: rest => stmt.shape :: Stmt.shapes rest

/-- What is shown of cases. -/
def Stmt.shapesOfCases : List Case → List Case
  | [] => []
  | found :: rest => found.shape :: Stmt.shapesOfCases rest

/-- What is shown of a case. -/
def Case.shape : Case → Case
  | .mk conditions body => .mk (conditions.map fun es => es.map Expr.shape) (Stmt.shapes body)

/-- What is shown of a procedure. -/
def Procedure.shape : Procedure → Procedure
  | .mk name kind params body access => .mk name kind params (Stmt.shapes body) access

end

/-- A word that is only there if something holds. -/
def Tree.flag (text : String) (holds : Bool) : List Tree := if holds then [.word text] else []

/-- The word in front of a private declaration. -/
def Access.trees (access : Access) : List Tree := Tree.flag "private" (access = .isPrivate)

/-- A parameter, with a word in front if it is the caller's variable. -/
def Param.trees (p : Param) : List Tree := Tree.flag "byref" p.byRef ++ [.word p.name.text]

/-- The bounds of an array, if there are any parentheses. -/
def Tree.bounds : Option (List Nat) → List Tree
  | some bounds => [.square (bounds.map fun n => .word (toString n))]
  | none => []

/-- The second body of a branch, if it has any statements. -/
def Tree.otherwise : List Tree → List Tree
  | [] => []
  | t :: ts => [.round (.word "else" :: t :: ts)]

/-- What cases have in front of their bodies: the values that they take, or a word. -/
def Tree.conditions : Option (List Expr) → Tree
  | some es => .square (es.map Expr.tree)
  | none => .word "else"

/-- An include directive as a row of trees. -/
def Include.trees (directive : Include) : List Tree :=
  [.word "include", .word (if directive.isVirtual then "virtual" else "file"), .quoted directive.path]

/-- The second word about error handling. -/
def ErrorPolicy.word : ErrorPolicy → String
  | resumeNext => "resume-next"
  | gotoZero => "goto-0"

mutual

/-- A statement as a tree. -/
def Stmt.tree : Stmt → Tree
  | .block _ body => .round (.word "block" :: Stmt.trees body)
  | .assign _ target value => .round [.word "assign", target.tree, value.tree]
  | .call _ e => e.tree
  | .const _ name value => .round [.word "const", .word name.text, value.tree]
  | .dim _ name bounds access =>
    .round (.word "dim" :: (access.trees ++ .word name.text :: Tree.bounds bounds))
  | .redim _ name bounds preserve =>
    .round (.word "redim" :: (Tree.flag "preserve" preserve ++ .word name.text :: bounds.map Expr.tree))
  | .procedure _ decl => .round decl.trees
  | .classDecl _ name members => .round (.word "class" :: .word name.text :: Stmt.trees members)
  | .property _ kind decl isDefault =>
    .round (.word "property" :: (Tree.flag "default" isDefault ++ .word kind.word :: decl.trees))
  | .branch _ cond thenBody elseBody =>
    .round (.word "if" :: cond.tree :: .round (.word "then" :: Stmt.trees thenBody) ::
      Tree.otherwise (Stmt.trees elseBody))
  | .loop _ cond body untilTrue testsAfter =>
    .round (.word "loop" :: .word (if untilTrue then "until" else "while") ::
      .word (if testsAfter then "post" else "pre") :: cond.tree :: Stmt.trees body)
  | .count _ var first last step body =>
    .round (.word "for" :: .word var.text :: first.tree :: last.tree :: step.tree :: Stmt.trees body)
  | .forEach _ var collection body =>
    .round (.word "foreach" :: .word var.text :: collection.tree :: Stmt.trees body)
  | .select _ subject cases => .round (.word "select" :: subject.tree :: Stmt.treesOfCases cases)
  | .withObject _ object body => .round (.word "with" :: object.tree :: Stmt.trees body)
  | .exit _ kind => .round [.word "exit", .word kind.word]
  | .onError _ kind => .round [.word "on-error", .word kind.word]
  | .optionExplicit _ on =>
    .round [.word "option", .word "explicit", .word (if on then "on" else "off")]
  | .includeFile _ directive none => .round directive.trees
  | .includeFile _ directive (some body) => .round (directive.trees ++ Stmt.trees body)

/-- Statements as trees. -/
def Stmt.trees : List Stmt → List Tree
  | [] => []
  | stmt :: rest => stmt.tree :: Stmt.trees rest

/-- Cases as trees. -/
def Stmt.treesOfCases : List Case → List Tree
  | [] => []
  | found :: rest => found.tree :: Stmt.treesOfCases rest

/-- A case as a tree. -/
def Case.tree : Case → Tree
  | .mk conditions body => .round (.word "case" :: Tree.conditions conditions :: Stmt.trees body)

/-- A procedure as a row of trees. -/
def Procedure.trees : Procedure → List Tree
  | .mk name kind params body access =>
    access.trees ++ .word kind.word :: .word name.text :: .round (params.flatMap Param.trees) ::
      Stmt.trees body

end

/-! ## Rows of texts -/

section

variable {α : Type} {f : α → String}

theorem toList_spacedOut_rows {rows : α → List Tree}
    (h : ∀ a, ' ' :: (f a).toList = Tree.printFurther (rows a)) (xs : List α) :
    (spacedOut (xs.map f)).toList = Tree.printFurther (xs.flatMap rows) := by
  induction xs with
  | nil => rfl
  | cons x xs ih =>
    rw [spacedOut] at ih ⊢
    simp [Tree.printFurther_append, ← h, ← ih]

theorem toList_spaced_cons (word : String) (words : List String) :
    (spaced (word :: words)).toList = word.toList ++ (spacedOut words).toList := by
  induction words generalizing word with
  | nil => simp [spaced, spacedOut]
  | cons next words ih =>
    have further := ih next
    rw [spaced, spacedOut] at further ⊢
    simp [String.intercalate_cons_cons, further]

theorem printRow_of_further {text : List Char} {ts : List Tree}
    (h : ' ' :: text = Tree.printFurther ts) : Tree.printRow ts = text := by
  cases ts with
  | nil => cases h
  | cons t ts => exact (List.cons.inj h).2.symm

theorem toList_spaced_rows {rows : α → List Tree}
    (h : ∀ a, ' ' :: (f a).toList = Tree.printFurther (rows a)) (xs : List α) :
    (spaced (xs.map f)).toList = Tree.printRow (xs.flatMap rows) := by
  cases xs with
  | nil => rfl
  | cons x xs =>
    refine (printRow_of_further ?_).symm
    rw [List.map_cons, toList_spaced_cons, toList_spacedOut_rows h, List.flatMap_cons,
      Tree.printFurther_append, ← h x, List.cons_append]

theorem toList_spacedOut {item : α → Tree} (h : ∀ a, (f a).toList = (item a).print) (xs : List α) :
    (spacedOut (xs.map f)).toList = Tree.printFurther (xs.map item) := by
  have rows : (spacedOut (xs.map f)).toList = Tree.printFurther (xs.flatMap fun a => [item a]) :=
    toList_spacedOut_rows (fun a => by simp [h]) xs
  rwa [← List.map_eq_flatMap] at rows

theorem toList_spaced {item : α → Tree} (h : ∀ a, (f a).toList = (item a).print) (xs : List α) :
    (spaced (xs.map f)).toList = Tree.printRow (xs.map item) := by
  have rows : (spaced (xs.map f)).toList = Tree.printRow (xs.flatMap fun a => [item a]) :=
    toList_spaced_rows (fun a => by simp [h]) xs
  rwa [← List.map_eq_flatMap] at rows

end

/-! ## Displays -/

theorem Param.toList_display (p : Param) : ' ' :: p.display.toList = Tree.printFurther p.trees := by
  rw [display, trees, Tree.flag]
  split <;> simp

theorem toList_bounds (bounds : List Nat) : (spaced (bounds.map toString)).toList =
    Tree.printRow (bounds.map fun n => .word (toString n)) :=
  toList_spaced (fun _ => rfl) bounds

theorem toList_spacedOut_displays (es : List Expr) :
    (spacedOut (es.map Expr.display)).toList = Tree.printFurther (es.map Expr.tree) :=
  toList_spacedOut Expr.toList_display es

theorem toList_spaced_displays (es : List Expr) :
    (spaced (es.map Expr.display)).toList = Tree.printRow (es.map Expr.tree) :=
  toList_spaced Expr.toList_display es

theorem toList_params (params : List Param) :
    (spaced (params.map Param.display)).toList = Tree.printRow (params.flatMap Param.trees) :=
  toList_spaced_rows Param.toList_display params

mutual

/-- The display of a statement is the text of its tree. -/
theorem Stmt.toList_display : ∀ stmt : Stmt, stmt.display.toList = stmt.tree.print
  | .block _ body => by
    rw [Stmt.display.eq_def, Stmt.tree.eq_def]
    simp [Stmt.toList_displayBody body]
  | .assign _ target value => by
    rw [Stmt.display.eq_def, Stmt.tree.eq_def]
    simp [target.toList_display, value.toList_display]
  | .call _ e => e.toList_display
  | .const _ name value => by
    rw [Stmt.display.eq_def, Stmt.tree.eq_def]
    simp [value.toList_display]
  | .dim _ name bounds access => by
    rw [Stmt.display.eq_def, Stmt.tree.eq_def]
    cases bounds <;> cases access <;> simp [Access.mark, Access.trees, Tree.flag, Tree.bounds, toList_bounds]
  | .redim _ name bounds preserve => by
    rw [Stmt.display.eq_def, Stmt.tree.eq_def]
    cases preserve <;> simp [Tree.flag, toList_spacedOut_displays]
  | .procedure _ decl => by
    rw [Stmt.display.eq_def, Stmt.tree.eq_def]
    simp [printRow_of_further decl.toList_display]
  | .classDecl _ name members => by
    rw [Stmt.display.eq_def, Stmt.tree.eq_def]
    simp [Stmt.toList_displayBody members]
  | .property _ kind decl isDefault => by
    rw [Stmt.display.eq_def, Stmt.tree.eq_def]
    cases isDefault <;> simp [Tree.flag, ← decl.toList_display]
  | .branch _ cond thenBody [] => by
    rw [Stmt.display.eq_def, Stmt.tree.eq_def]
    simp [cond.toList_display, Stmt.toList_displayBody thenBody, Stmt.trees, Tree.otherwise]
  | .branch _ cond thenBody (stmt :: rest) => by
    rw [Stmt.display.eq_def, Stmt.tree.eq_def]
    simp [cond.toList_display, Stmt.toList_displayBody thenBody, Stmt.displayBody, Stmt.trees, Tree.otherwise,
      stmt.toList_display, Stmt.toList_displayBody rest]
  | .loop _ cond body untilTrue testsAfter => by
    rw [Stmt.display.eq_def, Stmt.tree.eq_def]
    cases untilTrue <;> cases testsAfter <;>
      simp [cond.toList_display, Stmt.toList_displayBody body]
  | .count _ var first last step body => by
    rw [Stmt.display.eq_def, Stmt.tree.eq_def]
    simp [spaced, String.intercalate_cons_cons, first.toList_display, last.toList_display, step.toList_display,
      Stmt.toList_displayBody body]
  | .forEach _ var collection body => by
    rw [Stmt.display.eq_def, Stmt.tree.eq_def]
    simp [collection.toList_display, Stmt.toList_displayBody body]
  | .select _ subject cases => by
    rw [Stmt.display.eq_def, Stmt.tree.eq_def]
    simp [subject.toList_display, Stmt.toList_displayCases cases]
  | .withObject _ object body => by
    rw [Stmt.display.eq_def, Stmt.tree.eq_def]
    simp [object.toList_display, Stmt.toList_displayBody body]
  | .exit _ kind => by
    rw [Stmt.display.eq_def, Stmt.tree.eq_def]
    simp
  | .onError _ kind => by
    rw [Stmt.display.eq_def, Stmt.tree.eq_def]
    cases kind <;> simp [ErrorPolicy.word]
  | .optionExplicit _ on => by
    rw [Stmt.display.eq_def, Stmt.tree.eq_def]
    cases on <;> simp
  | .includeFile _ directive none => by
    rw [Stmt.display.eq_def, Stmt.tree.eq_def]
    rcases directive with ⟨path, _ | _⟩ <;> simp [Include.trees]
  | .includeFile _ directive (some body) => by
    rw [Stmt.display.eq_def, Stmt.tree.eq_def]
    rcases directive with ⟨path, _ | _⟩ <;> simp [Include.trees, Stmt.toList_displayBody body]

theorem Stmt.toList_displayBody : ∀ body : List Stmt,
    (Stmt.displayBody body).toList = Tree.printFurther (Stmt.trees body)
  | [] => rfl
  | stmt :: rest => by
    simp [Stmt.displayBody, Stmt.trees, stmt.toList_display, Stmt.toList_displayBody rest]

theorem Stmt.toList_displayCases : ∀ cases : List Case,
    (Stmt.displayCases cases).toList = Tree.printFurther (Stmt.treesOfCases cases)
  | [] => rfl
  | c :: rest => by
    simp [Stmt.displayCases, Stmt.treesOfCases, c.toList_display, Stmt.toList_displayCases rest]

theorem Case.toList_display : ∀ c : Case, c.display.toList = c.tree.print
  | .mk none body => by
    simp [Case.display, Case.tree, Tree.conditions, Stmt.toList_displayBody body]
  | .mk (some es) body => by
    simp [Case.display, Case.tree, Tree.conditions, toList_spaced_displays, Stmt.toList_displayBody body]

theorem Procedure.toList_display : ∀ decl : Procedure,
    ' ' :: decl.display.toList = Tree.printFurther decl.trees
  | .mk name kind params body access => by
    cases access <;>
      simp [Procedure.display, Procedure.trees, Access.mark, Access.trees, Tree.flag, toList_params,
        Stmt.toList_displayBody body]

end

end PageScript
