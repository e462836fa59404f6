import PageScript.Proofs.Syntax.Nesting
import PageScript.Syntax.Stmt.Parser

/-!
# Proofs/Syntax/Tree/Forms — where statements stand

`stmt.Formed around` says that a statement has the form that the readers give it where `around`
encloses it: what one word declares and the pieces of literal content are gathered in blocks
(`Stmt.Gathers`), and any other statement may stand there (`Stmt.MayStand`), with statements in its
bodies that are formed for what it encloses them by.

`Stmt.WellFormed` puts what follows for a whole program in terms of the statements that occur in it,
each with the statement that holds it.
-/

namespace PageScript

namespace Stmt

/-! ## Blocks -/

/-- A variable declared with an access. -/
def IsDim (access : Access) : Stmt → Prop
  | dim _ _ _ given => given = access
  | _ => False

/-- An array that gets new bounds, with a preserve flag. -/
def IsRedim (preserve : Bool) : Stmt → Prop
  | redim _ _ _ given => given = preserve
  | _ => False

/-- A constant. -/
def IsConst : Stmt → Prop
  | const .. => True
  | _ => False

/-- A piece of literal page content: something that is written, or an include directive without its
file. -/
inductive IsPiece : Stmt → Prop
  | writing (value : Expr) (s : Span) : IsPiece (Parse.writing value s)
  | directive (s : Span) (path : Include) : IsPiece (.includeFile s path none)

/-- Statements that make one block; in a class only variables or constants do. -/
inductive Gathers (around : Enclosing) : List Stmt → Prop
  | dims {access : Access} {group : List Stmt} (some_variable : group ≠ [])
      (h : ∀ stmt ∈ group, stmt.IsDim access) : Gathers around group
  | consts {group : List Stmt} (several : 2 ≤ group.length) (h : ∀ stmt ∈ group, stmt.IsConst) :
      Gathers around group
  | redims {preserve : Bool} {group : List Stmt} (outside : around.inClass = false)
      (some_array : group ≠ []) (h : ∀ stmt ∈ group, stmt.IsRedim preserve) : Gathers around group
  | content {group : List Stmt} (outside : around.inClass = false) (some_piece : group ≠ [])
      (h : ∀ stmt ∈ group, stmt.IsPiece) : Gathers around group

/-- A block is never empty. -/
theorem Gathers.ne_nil {around : Enclosing} {group : List Stmt} (h : Gathers around group) :
    group ≠ [] := by
  cases h with
  | dims some_variable => exact some_variable
  | consts several => exact List.ne_nil_of_length_pos (Nat.lt_of_lt_of_le Nat.two_pos several)
  | redims _ some_array => exact some_array
  | content _ some_piece => exact some_piece

/-- The statements of a block hold no others. -/
theorem Gathers.bodies_eq_nil {around : Enclosing} {group : List Stmt} (h : Gathers around group)
    {stmt : Stmt} (mem : stmt ∈ group) : stmt.bodies = [] := by
  cases h with
  | dims _ h | consts _ h | redims _ _ h => cases stmt <;> first | rfl | nomatch h _ mem
  | content _ _ h => cases h _ mem <;> rfl

/-! ## What may stand where -/

/-- What encloses the statements in the bodies of a statement. -/
def enclosing (around : Enclosing) : Stmt → Enclosing
  | procedure .. | property .. => ⟨false, true⟩
  | classDecl .. => { around with inClass := true }
  | _ => around

/-- A statement, no block, that may stand on its own.  A class has constants, procedures and
properties as members only, and a call holds a call. -/
def MayStand (around : Enclosing) : Stmt → Prop
  | const .. => True
  | procedure .. => around.inProcedure = false
  | property .. => around.inClass = true
  | classDecl .. => around.inClass = false ∧ around.inProcedure = false
  | call _ e => around.inClass = false ∧ ∃ s callee args, e = .call s callee args
  | block .. | dim .. | redim .. | includeFile .. => False
  | assign .. | branch .. | loop .. | count .. | forEach .. | select .. | withObject .. | exit ..
  | onError .. | optionExplicit .. => around.inClass = false

/-- A statement is a block, or it may stand on its own and its bodies are formed. -/
inductive Formed : Enclosing → Stmt → Prop
  | group {around : Enclosing} {s : Span} {body : List Stmt} (h : Gathers around body) :
      Formed around (.block s body)
  | alone {around : Enclosing} {stmt : Stmt} (here : stmt.MayStand around)
      (inside : ∀ body ∈ stmt.bodies, ∀ inner ∈ body, Formed (stmt.enclosing around) inner) :
      Formed around stmt

/-! ## Occurrences -/

/-- A statement occurs in a program, as one of its own statements or in a body of a statement that
occurs in it and holds it. -/
inductive Occurs (program : List Stmt) : (holder : Option Stmt) → Stmt → Prop
  | top {stmt : Stmt} (mem : stmt ∈ program) : Occurs program none stmt
  | inside {holder : Option Stmt} {outer stmt : Stmt} {body : List Stmt}
      (occurs : Occurs program holder outer) (body_mem : body ∈ outer.bodies) (mem : stmt ∈ body) :
      Occurs program (some outer) stmt

/-- Where a formed statement occurs: in a block, or on its own; what a class encloses it holds. -/
inductive Placed (around : Enclosing) : (holder : Option Stmt) → Stmt → Prop
  | gathered {s : Span} {group : List Stmt} {stmt : Stmt} (h : Gathers around group)
      (mem : stmt ∈ group) : Placed around (some (.block s group)) stmt
  | alone {holder : Option Stmt} {stmt : Stmt} (formed : stmt.Formed around)
      (member : around.inClass = true → ∃ s name members, holder = some (.classDecl s name members)) :
      Placed around holder stmt

variable {around : Enclosing} {holder : Option Stmt} {stmt inner : Stmt} {body program : List Stmt}

/-- In a class, a statement that may stand there encloses others only as a procedure. -/
theorem MayStand.enclosing (here : stmt.MayStand around) (body_mem : body ∈ stmt.bodies)
    (inClass : (stmt.enclosing around).inClass = true) : ∃ s name members,
      stmt = .classDecl s name members := by
  cases stmt with
  | classDecl s name members => exact ⟨s, name, members, rfl⟩
  | procedure | property => nomatch inClass
  | assign | call | const | dim | redim | exit | onError | optionExplicit | includeFile =>
    nomatch body_mem
  | block => exact here.elim
  | _ => exact nomatch here.symm.trans inClass

/-- One level further in. -/
theorem Placed.inside (h : Placed around holder stmt) (body_mem : body ∈ stmt.bodies)
    (mem : inner ∈ body) : ∃ around', Placed around' (some stmt) inner ∧
      (around = ⟨false, true⟩ → around' = ⟨false, true⟩) := by
  cases h with
  | gathered h mem' => nomatch h.bodies_eq_nil mem' ▸ body_mem
  | alone formed =>
    cases formed with
    | group h =>
      obtain rfl := List.mem_singleton.mp body_mem
      exact ⟨around, .gathered h mem, id⟩
    | alone here inside =>
      refine ⟨_, .alone (inside body body_mem inner mem) fun inClass => ?_, ?_⟩
      · obtain ⟨s, name, members, rfl⟩ := here.enclosing body_mem inClass
        exact ⟨s, name, members, rfl⟩
      · rintro rfl
        cases stmt with
        | classDecl => nomatch here.2
        | _ => rfl

/-- At every depth. -/
theorem Occurs.placed (h : ∀ stmt ∈ program, stmt.Formed around) (outside : around.inClass = false)
    (occurs : Occurs program holder stmt) : ∃ around', Placed around' holder stmt ∧
      (around = ⟨false, true⟩ → around' = ⟨false, true⟩) := by
  induction occurs with
  | top mem => exact ⟨around, .alone (h _ mem) (fun inClass => nomatch outside.symm.trans inClass), id⟩
  | inside _ body_mem mem ih =>
    obtain ⟨around', placed, kept⟩ := ih
    obtain ⟨around'', placed', kept'⟩ := placed.inside body_mem mem
    exact ⟨around'', placed', kept' ∘ kept⟩

/-! ## Programs -/

/-- The procedure that a statement declares, as a function, a sub or a property. -/
def declared? : Stmt → Option Procedure
  | procedure _ decl | property _ _ decl _ => some decl
  | _ => none

/-- The statement declares a function, a sub, a property or a class. -/
def Declares : Stmt → Prop
  | procedure .. | property .. | classDecl .. => True
  | _ => False

/-- What a class has as a member: variables of one access, constants, a procedure or a property. -/
inductive IsClassMember : Stmt → Prop
  | dims {s : Span} {access : Access} {group : List Stmt} (some_variable : group ≠ [])
      (h : ∀ stmt ∈ group, stmt.IsDim access) : IsClassMember (.block s group)
  | consts {s : Span} {group : List Stmt} (several : 2 ≤ group.length)
      (h : ∀ stmt ∈ group, stmt.IsConst) : IsClassMember (.block s group)
  | const {s : Span} {name : Name} {value : Literal} : IsClassMember (.const s name value)
  | procedure {s : Span} {decl : Procedure} : IsClassMember (.procedure s decl)
  | property {s : Span} {form : PropertyForm} {decl : Procedure} {isDefault : Bool} :
      IsClassMember (.property s form decl isDefault)

/-- What the evaluator and the declarations of a program rely on. -/
structure WellFormed (program : List Stmt) : Prop where
  /-- Nothing is declared in the body of a procedure, however deep. -/
  undeclared {holder holder' : Option Stmt} {stmt inner : Stmt} {decl : Procedure} :
    Occurs program holder stmt → stmt.declared? = some decl → Occurs decl.body holder' inner →
      ¬ inner.Declares
  /-- Properties are members of classes. -/
  property {holder : Option Stmt} {s : Span} {form : PropertyForm} {decl : Procedure}
    {isDefault : Bool} : Occurs program holder (.property s form decl isDefault) →
      ∃ s name members, holder = some (.classDecl s name members)
  member {holder : Option Stmt} {s : Span} {name : Name} {members : List Stmt} :
    Occurs program holder (.classDecl s name members) → ∀ stmt ∈ members, stmt.IsClassMember
  call {holder : Option Stmt} {s : Span} {e : Expr} :
    Occurs program holder (.call s e) → ∃ s callee args, e = .call s callee args
  /-- Variables are declared in blocks, all of one access. -/
  dim {holder : Option Stmt} {s : Span} {name : Name} {bounds : Option (List Nat)}
    {access : Access} : Occurs program holder (.dim s name bounds access) →
      ∃ s group, holder = some (.block s group) ∧ ∀ stmt ∈ group, stmt.IsDim access
  /-- Arrays get new bounds in blocks, all with one flag. -/
  redim {holder : Option Stmt} {s : Span} {name : Name} {bounds : List Expr} {preserve : Bool} :
    Occurs program holder (.redim s name bounds preserve) →
      ∃ s group, holder = some (.block s group) ∧ ∀ stmt ∈ group, stmt.IsRedim preserve
  /-- Every block gathers what one word declares, or literal content, and is not empty. -/
  block {holder : Option Stmt} {s : Span} {group : List Stmt} :
    Occurs program holder (.block s group) → group ≠ [] ∧ ∃ around, Gathers around group
  /-- An include directive is a piece of literal content and has no file yet. -/
  includeFile {holder : Option Stmt} {s : Span} {directive : Include}
    {attached : Option (List Stmt)} : Occurs program holder (.includeFile s directive attached) →
      attached = none ∧ ∃ s group, holder = some (.block s group) ∧ ∀ stmt ∈ group, stmt.IsPiece

/-- Blocks hold no declarations of procedures or classes. -/
theorem Gathers.not_declares (h : Gathers around body) (mem : stmt ∈ body) : ¬ stmt.Declares := by
  intro declares
  cases h with
  | dims _ h | consts _ h | redims _ _ h =>
    cases stmt <;> first | exact declares | exact h _ mem
  | content _ _ h => cases h _ mem <;> exact declares

theorem Placed.formed (h : Placed around holder stmt) (declares : stmt.Declares) :
    stmt.Formed around := by
  cases h with
  | gathered h mem => exact absurd declares (h.not_declares mem)
  | alone formed => exact formed

theorem Formed.mayStand (h : stmt.Formed around) (declares : stmt.Declares) :
    stmt.MayStand around := by
  cases h with
  | group => exact declares.elim
  | alone here => exact here

theorem Formed.inside (h : stmt.Formed around) (declares : stmt.Declares) (mem : body ∈ stmt.bodies) :
    ∀ inner ∈ body, inner.Formed (stmt.enclosing around) := by
  cases h with
  | group => exact declares.elim
  | alone _ inside => exact inside body mem

theorem Formed.isClassMember (h : stmt.Formed around) (inClass : around.inClass = true) :
    stmt.IsClassMember := by
  cases h with
  | group h =>
    cases h with
    | dims some_variable h => exact .dims some_variable h
    | consts several h => exact .consts several h
    | redims outside | content outside => nomatch outside.symm.trans inClass
  | alone here =>
    cases stmt with
    | const => exact .const
    | procedure => exact .procedure
    | property => exact .property
    | call | classDecl => nomatch here.1.symm.trans inClass
    | block | dim | redim | includeFile => exact here.elim
    | _ => exact nomatch here.symm.trans inClass

theorem Placed.property {s : Span} {form : PropertyForm} {decl : Procedure} {isDefault : Bool}
    (h : Placed around holder (.property s form decl isDefault)) :
    ∃ s name members, holder = some (.classDecl s name members) := by
  cases h with
  | gathered h mem => exact absurd trivial (h.not_declares mem)
  | alone formed member => exact member (formed.mayStand trivial)

theorem Placed.call {s : Span} {e : Expr} (h : Placed around holder (.call s e)) :
    ∃ s callee args, e = .call s callee args := by
  cases h with
  | gathered h mem =>
    cases h with
    | dims _ h | consts _ h | redims _ _ h => exact (h _ mem).elim
    | content _ _ h =>
      cases h _ mem with
      | writing value s => exact ⟨_, _, _, rfl⟩
  | alone formed =>
    cases formed with
    | alone here => exact here.2

theorem Placed.dim {s : Span} {name : Name} {bounds : Option (List Nat)} {access : Access}
    (h : Placed around holder (.dim s name bounds access)) :
    ∃ s group, holder = some (.block s group) ∧ ∀ stmt ∈ group, stmt.IsDim access := by
  cases h with
  | gathered h mem =>
    cases h with
    | dims _ h => exact ⟨_, _, rfl, h _ mem ▸ h⟩
    | consts _ h | redims _ _ h => exact (h _ mem).elim
    | content _ _ h => nomatch h _ mem
  | alone formed =>
    cases formed with
    | alone here => exact here.elim

theorem Placed.redim {s : Span} {name : Name} {bounds : List Expr} {preserve : Bool}
    (h : Placed around holder (.redim s name bounds preserve)) :
    ∃ s group, holder = some (.block s group) ∧ ∀ stmt ∈ group, stmt.IsRedim preserve := by
  cases h with
  | gathered h mem =>
    cases h with
    | redims _ _ h => exact ⟨_, _, rfl, h _ mem ▸ h⟩
    | dims _ h | consts _ h => exact (h _ mem).elim
    | content _ _ h => nomatch h _ mem
  | alone formed =>
    cases formed with
    | alone here => exact here.elim

theorem Placed.block {s : Span} {group : List Stmt} (h : Placed around holder (.block s group)) :
    Gathers around group := by
  cases h with
  | gathered h mem =>
    cases h with
    | dims _ h | consts _ h | redims _ _ h => exact (h _ mem).elim
    | content _ _ h => nomatch h _ mem
  | alone formed =>
    cases formed with
    | group h => exact h
    | alone here => exact here.elim

theorem Placed.includeFile {s : Span} {directive : Include} {attached : Option (List Stmt)}
    (h : Placed around holder (.includeFile s directive attached)) : attached = none ∧
      ∃ s group, holder = some (.block s group) ∧ ∀ stmt ∈ group, stmt.IsPiece := by
  cases h with
  | gathered h mem =>
    cases h with
    | dims _ h | consts _ h | redims _ _ h => exact (h _ mem).elim
    | content _ _ h =>
      cases h _ mem with
      | directive => exact ⟨rfl, _, _, rfl, h⟩
  | alone formed =>
    cases formed with
    | alone here => exact here.elim

/-- Inside a procedure nothing is declared. -/
theorem Placed.not_declares (h : Placed ⟨false, true⟩ holder stmt) : ¬ stmt.Declares := by
  intro declares
  have here := (h.formed declares).mayStand declares
  cases stmt with
  | procedure | property => nomatch here
  | classDecl => nomatch here.2
  | _ => exact declares

/-- The body of a procedure is formed for the inside of one. -/
theorem Placed.formed_body {decl : Procedure} (h : Placed around holder stmt)
    (declared : stmt.declared? = some decl) : ∀ inner ∈ decl.body, inner.Formed ⟨false, true⟩ := by
  cases stmt with
  | procedure | property =>
    cases declared
    exact (h.formed trivial).inside trivial (List.mem_singleton.mpr rfl)
  | _ => nomatch declared

/-- **A program of formed statements is well formed.** -/
theorem wellFormed_of_formed (h : ∀ stmt ∈ program, stmt.Formed ⟨false, false⟩) :
    WellFormed program where
  undeclared occurs declared occurs' := by
    obtain ⟨around, placed, -⟩ := occurs.placed h rfl
    obtain ⟨around', placed', kept⟩ := occurs'.placed (placed.formed_body declared) rfl
    exact (kept rfl ▸ placed').not_declares
  property occurs := by
    obtain ⟨around, placed, -⟩ := occurs.placed h rfl
    exact placed.property
  member occurs stmt mem := by
    obtain ⟨around, placed, -⟩ := occurs.placed h rfl
    have inside := (placed.formed trivial).inside trivial (List.mem_singleton.mpr rfl) stmt mem
    exact inside.isClassMember rfl
  call occurs := by
    obtain ⟨around, placed, -⟩ := occurs.placed h rfl
    exact placed.call
  dim occurs := by
    obtain ⟨around, placed, -⟩ := occurs.placed h rfl
    exact placed.dim
  redim occurs := by
    obtain ⟨around, placed, -⟩ := occurs.placed h rfl
    exact placed.redim
  block occurs := by
    obtain ⟨around, placed, -⟩ := occurs.placed h rfl
    exact ⟨placed.block.ne_nil, around, placed.block⟩
  includeFile occurs := by
    obtain ⟨around, placed, -⟩ := occurs.placed h rfl
    exact placed.includeFile

end Stmt

end PageScript
