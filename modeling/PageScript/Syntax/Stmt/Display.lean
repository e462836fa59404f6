import PageScript.Syntax.Expr.Display
import PageScript.Syntax.Stmt.Basic

/-!
# Syntax/Stmt/Display — programs as bracketed trees

A statement is shown with its kind in front, in brackets, and the statements of its body behind it.
Spans are left out.
-/

namespace PageScript

/-- The words, with a space between any two. -/
def spaced (words : List String) : String := String.intercalate " " words

/-- The words, each with a space in front. -/
def spacedOut (words : List String) : String := String.join (words.map (" " ++ ·))

/-- A parameter as it stands in a tree. -/
def Param.display (p : Param) : String := (if p.byRef then "byref " else "") ++ p.name.text

/-- The word for the form of a property. -/
def PropertyForm.word : PropertyForm → String
  | get => "get"
  | assign => "let"
  | set => "set"

/-- The word for the form of a procedure. -/
def ProcedureForm.word : ProcedureForm → String
  | function => "function"
  | sub => "sub"

/-- The mark of a private declaration. -/
def Access.mark : Access → String
  | isPublic => ""
  | isPrivate => "private "

mutual

/-- The bracketed tree of a statement. -/
def Stmt.display : Stmt → String
  | .block _ body => "(block" ++ Stmt.displayBody body ++ ")"
  | .assign _ target value => "(assign " ++ target.display ++ " " ++ value.display ++ ")"
  | .call _ e => e.display
  | .const _ name value => "(const " ++ name.text ++ " " ++ value.display ++ ")"
  | .dim _ name bounds access =>
    let shown := match bounds with
      | some bounds => " [" ++ spaced (bounds.map toString) ++ "]"
      | none => ""
    "(dim " ++ access.mark ++ name.text ++ shown ++ ")"
  | .redim _ name bounds preserve =>
    "(redim " ++ (if preserve then "preserve " else "") ++ name.text
      ++ spacedOut (bounds.map Expr.display) ++ ")"
  | .procedure _ decl => "(" ++ decl.display ++ ")"
  | .classDecl _ name members => "(class " ++ name.text ++ Stmt.displayBody members ++ ")"
  | .property _ kind decl isDefault =>
    "(property " ++ (if isDefault then "default " else "") ++ kind.word ++ " " ++ decl.display ++ ")"
  | .branch _ cond thenBody elseBody =>
    let otherwise := match elseBody with
      | [] => ""
      | body => " (else" ++ Stmt.displayBody body ++ ")"
    "(if " ++ cond.display ++ " (then" ++ Stmt.displayBody thenBody ++ ")" ++ otherwise ++ ")"
  | .loop _ cond body untilTrue testsAfter =>
    "(loop " ++ (if untilTrue then "until " else "while ")
      ++ (if testsAfter then "post " else "pre ") ++ cond.display ++ Stmt.displayBody body ++ ")"
  | .count _ var first last step body =>
    "(for " ++ spaced [var.text, first.display, last.display, step.display]
      ++ Stmt.displayBody body ++ ")"
  | .forEach _ var collection body =>
    "(foreach " ++ var.text ++ " " ++ collection.display ++ Stmt.displayBody body ++ ")"
  | .select _ subject cases =>
    "(select " ++ subject.display ++ Stmt.displayCases cases ++ ")"
  | .withObject _ object body => "(with " ++ object.display ++ Stmt.displayBody body ++ ")"
  | .exit _ kind => "(exit " ++ kind.word ++ ")"
  | .onError _ .resumeNext => "(on-error resume-next)"
  | .onError _ .gotoZero => "(on-error goto-0)"
  | .optionExplicit _ on => "(option explicit " ++ (if on then "on" else "off") ++ ")"
  | .includeFile _ directive attached =>
    let body := match attached with
      | some body => Stmt.displayBody body
      | none => ""
    "(include " ++ (if directive.isVirtual then "virtual " else "file ")
      ++ Text.quote directive.path ++ body ++ ")"

/-- The trees of statements, each with a space in front. -/
def Stmt.displayBody : List Stmt → String
  | [] => ""
  | stmt :: rest => " " ++ stmt.display ++ Stmt.displayBody rest

/-- The trees of cases, each with a space in front. -/
def Stmt.displayCases : List Case → String
  | [] => ""
  | c :: rest => " " ++ c.display ++ Stmt.displayCases rest

/-- The tree of a case. -/
def Case.display : Case → String
  | .mk conditions body =>
    let shown := match conditions with
      | some conditions => " [" ++ spaced (conditions.map Expr.display) ++ "]"
      | none => " else"
    "(case" ++ shown ++ Stmt.displayBody body ++ ")"

/-- A procedure as it stands in a tree, without brackets of its own. -/
def Procedure.display : Procedure → String
  | .mk name kind params body access =>
    access.mark ++ kind.word ++ " " ++ name.text ++ " (" ++ spaced (params.map Param.display) ++ ")"
      ++ Stmt.displayBody body

end

/-- The trees of a program, with a space between any two. -/
def displayProgram (body : List Stmt) : String := spaced (body.map Stmt.display)

end PageScript
