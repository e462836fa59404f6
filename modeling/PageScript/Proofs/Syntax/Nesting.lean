import Mathlib.Data.List.Basic
import PageScript.Syntax.Stmt.Basic

/-!
# Proofs/Syntax/Nesting — the statements inside a statement

`Stmt.bodies` are the lists of statements that were written inside a statement; the statements of an
included file, once they are attached, are inside its directive too.  `Stmt.Every` says of a statement
and of all statements inside it, at any depth, that a property holds.
-/

namespace PageScript.Stmt

/-- The bodies written inside a statement. -/
def bodies : Stmt → List (List Stmt)
  | block _ body | loop _ _ body _ _ | count _ _ _ _ _ body | forEach _ _ _ body
  | withObject _ _ body | classDecl _ _ body => [body]
  | branch _ _ thenBody elseBody => [thenBody, elseBody]
  | select _ _ cases => cases.map Case.body
  | procedure _ decl | property _ _ decl _ => [decl.body]
  | assign .. | call .. | const .. | dim .. | redim .. | exit .. | onError .. | optionExplicit ..
  | includeFile .. => []

/-- The statements attached to an include directive. -/
def attached? : Stmt → Option (List Stmt)
  | includeFile _ _ attached => attached
  | _ => none

/-- A statement inside a body of a statement is smaller. -/
theorem sizeOf_lt_of_mem_bodies {stmt inner : Stmt} {body : List Stmt} (hbody : body ∈ stmt.bodies)
    (hinner : inner ∈ body) : sizeOf inner < sizeOf stmt := by
  have inBody : sizeOf inner < sizeOf body := List.sizeOf_lt_of_mem hinner
  suffices h : sizeOf body < sizeOf stmt from Nat.lt_trans inBody h
  cases stmt with
  | select span subject cases =>
    obtain ⟨⟨conditions, _⟩, hcase, rfl⟩ := List.mem_map.mp hbody
    have inCases := List.sizeOf_lt_of_mem hcase
    simp only [Case.mk.sizeOf_spec, Case.body, select.sizeOf_spec] at inCases ⊢
    omega
  | procedure span decl | property span form decl isDefault =>
    obtain rfl := List.mem_singleton.mp hbody
    cases decl
    simp only [Procedure.body, Procedure.mk.sizeOf_spec, procedure.sizeOf_spec,
      property.sizeOf_spec]
    omega
  | branch =>
    simp only [bodies, List.mem_cons, List.not_mem_nil, or_false] at hbody
    obtain rfl | rfl := hbody <;> simp only [branch.sizeOf_spec] <;> omega
  | assign | call | const | dim | redim | exit | onError | optionExplicit | includeFile =>
    nomatch hbody
  | _ =>
    obtain rfl := List.mem_singleton.mp hbody
    simp +arith

theorem sizeOf_lt_of_mem_attached {stmt inner : Stmt} {body : List Stmt}
    (hbody : stmt.attached? = some body) (hinner : inner ∈ body) : sizeOf inner < sizeOf stmt := by
  have inBody : sizeOf inner < sizeOf body := List.sizeOf_lt_of_mem hinner
  cases stmt with
  | includeFile span directive attached =>
    obtain rfl : attached = some body := hbody
    simp only [includeFile.sizeOf_spec, Option.some.sizeOf_spec]
    omega
  | _ => nomatch hbody

/-- What holds of a statement whenever it holds of the statements inside it holds of all. -/
theorem induct {motive : Stmt → Prop}
    (step : ∀ stmt, (∀ body ∈ stmt.bodies, ∀ inner ∈ body, motive inner) →
      (∀ body, stmt.attached? = some body → ∀ inner ∈ body, motive inner) → motive stmt)
    (stmt : Stmt) : motive stmt :=
  step stmt (fun _ _ inner _ => induct step inner) fun _ _ inner _ => induct step inner
termination_by sizeOf stmt
decreasing_by
  · exact sizeOf_lt_of_mem_bodies ‹_› ‹_›
  · exact sizeOf_lt_of_mem_attached ‹_› ‹_›

/-! ## Statements with other bodies -/

/-- The same cases with other bodies, in order. -/
def replaceCases : List Case → List (List Stmt) → List Case :=
  List.zipWith fun case body => .mk case.conditions body

/-- The same statement with other bodies, in order. -/
def withBodies : Stmt → List (List Stmt) → Stmt
  | block span _, [body] => block span body
  | loop span cond _ untilTrue testsAfter, [body] => loop span cond body untilTrue testsAfter
  | count span var first last step _, [body] => count span var first last step body
  | forEach span var collection _, [body] => forEach span var collection body
  | withObject span object _, [body] => withObject span object body
  | classDecl span name _, [members] => classDecl span name members
  | branch span cond _ _, [thenBody, elseBody] => branch span cond thenBody elseBody
  | select span subject cases, bodies => select span subject (replaceCases cases bodies)
  | procedure span decl, [body] =>
    procedure span (.mk decl.name decl.kind decl.params body decl.access)
  | property span form decl isDefault, [body] =>
    property span form (.mk decl.name decl.kind decl.params body decl.access) isDefault
  | stmt, _ => stmt

theorem replaceCases_bodies : ∀ cases : List Case, replaceCases cases (cases.map Case.body) = cases
  | [] => rfl
  | .mk _ _ :: rest => congrArg (_ :: ·) (replaceCases_bodies rest)

theorem bodies_replaceCases : ∀ {cases : List Case} {bs : List (List Stmt)},
    bs.length = cases.length → (replaceCases cases bs).map Case.body = bs
  | [], [], _ => rfl
  | _ :: _, _ :: _, h => congrArg (_ :: ·) (bodies_replaceCases (Nat.succ.inj h))

theorem replaceCases_replaceCases : ∀ {cases : List Case} {bs bs' : List (List Stmt)},
    bs.length = cases.length →
      replaceCases (replaceCases cases bs) bs' = replaceCases cases bs'
  | [], [], _, _ => rfl
  | _ :: _, _ :: _, [], _ => rfl
  | _ :: _, _ :: _, _ :: _, h => congrArg (_ :: ·) (replaceCases_replaceCases (Nat.succ.inj h))

theorem withBodies_bodies (stmt : Stmt) : stmt.withBodies stmt.bodies = stmt := by
  cases stmt with
  | select span subject cases => exact congrArg (select span subject) (replaceCases_bodies cases)
  | procedure span decl | property span form decl isDefault => cases decl; rfl
  | _ => rfl

variable {bs bs' : List (List Stmt)}

theorem bodies_withBodies {stmt : Stmt} (h : bs.length = stmt.bodies.length) :
    (stmt.withBodies bs).bodies = bs := by
  cases stmt with
  | select span subject cases => exact bodies_replaceCases (h.trans (List.length_map _))
  | branch span cond thenBody elseBody =>
    obtain ⟨thenBody, elseBody, rfl⟩ := List.length_eq_two.mp h
    rfl
  | assign | call | const | dim | redim | exit | onError | optionExplicit | includeFile =>
    exact (List.length_eq_zero_iff.mp h).symm
  | _ =>
    obtain ⟨body, rfl⟩ := List.length_eq_one_iff.mp h
    rfl

theorem withBodies_withBodies {stmt : Stmt} (h : bs.length = stmt.bodies.length)
    (h' : bs'.length = stmt.bodies.length) :
    (stmt.withBodies bs).withBodies bs' = stmt.withBodies bs' := by
  cases stmt with
  | select span subject cases =>
    exact congrArg (select span subject) (replaceCases_replaceCases (h.trans (List.length_map _)))
  | branch span cond thenBody elseBody =>
    obtain ⟨thenBody, elseBody, rfl⟩ := List.length_eq_two.mp h
    obtain ⟨thenBody', elseBody', rfl⟩ := List.length_eq_two.mp h'
    rfl
  | assign | call | const | dim | redim | exit | onError | optionExplicit | includeFile => rfl
  | _ =>
    obtain ⟨body, rfl⟩ := List.length_eq_one_iff.mp h
    obtain ⟨body', rfl⟩ := List.length_eq_one_iff.mp h'
    rfl

theorem attached?_withBodies (stmt : Stmt) (bs : List (List Stmt)) :
    (stmt.withBodies bs).attached? = stmt.attached? := by
  unfold withBodies
  split <;> rfl

/-- A statement is determined by its bodies and by what it is with any other ones. -/
theorem eq_of_withBodies_eq {stmt other : Stmt} (h : bs.length = stmt.bodies.length)
    (h' : bs'.length = other.bodies.length) (same : stmt.withBodies bs = other.withBodies bs')
    (bodies : stmt.bodies = other.bodies) : stmt = other := by
  have back := withBodies_withBodies h rfl
  rw [withBodies_bodies, same, bodies, withBodies_withBodies h' rfl, withBodies_bodies] at back
  exact back.symm

/-! ## All statements inside a statement -/

/-- A property holds of a statement and of all statements inside it, procedures, classes and
attached files included. -/
inductive Every (p : Stmt → Prop) : Stmt → Prop
  | intro {stmt : Stmt} (here : p stmt)
      (inside : ∀ body ∈ stmt.bodies, ∀ inner ∈ body, Every p inner)
      (attached : ∀ body, stmt.attached? = some body → ∀ inner ∈ body, Every p inner) :
      Every p stmt

/-- A property holds of statements and of all statements inside them. -/
def EveryIn (p : Stmt → Prop) (body : List Stmt) : Prop := ∀ stmt ∈ body, stmt.Every p

variable {p q : Stmt → Prop}

/-- A statement without statements inside it. -/
theorem Every.leaf {stmt : Stmt} (here : p stmt) (inside : stmt.bodies = [])
    (attached : stmt.attached? = none) : stmt.Every p :=
  .intro here (fun _ h => nomatch inside ▸ h) fun _ h => nomatch attached.symm.trans h

theorem Every.here {stmt : Stmt} (h : stmt.Every p) : p stmt := by
  cases h with
  | intro here _ _ => exact here

theorem Every.inside {stmt : Stmt} (h : stmt.Every p) : ∀ body ∈ stmt.bodies, EveryIn p body := by
  cases h with
  | intro _ inside _ => exact inside

theorem Every.attached {stmt : Stmt} (h : stmt.Every p) {body : List Stmt}
    (hbody : stmt.attached? = some body) : EveryIn p body := by
  cases h with
  | intro _ _ attached => exact attached body hbody

/-- What holds of all statements holds at every depth. -/
theorem every_of_forall (h : ∀ stmt, p stmt) : ∀ stmt : Stmt, stmt.Every p :=
  induct fun stmt => .intro (h stmt)

theorem everyIn_nil : EveryIn p [] := fun _ h => nomatch h

theorem everyIn_cons {stmt : Stmt} {rest : List Stmt} :
    EveryIn p (stmt :: rest) ↔ stmt.Every p ∧ EveryIn p rest := List.forall_mem_cons

/-! ## The statements that share a frame -/

/-- The bodies of a statement that are declared or executed in its frame: procedures have frames of
their own, and classes are never run. -/
def ownBodies : Stmt → List (List Stmt)
  | block _ body | loop _ _ body _ _ | count _ _ _ _ _ body | forEach _ _ _ body
  | withObject _ _ body | property _ _ (.mk _ _ _ body _) _ | includeFile _ _ (some body) => [body]
  | branch _ _ thenBody elseBody => [thenBody, elseBody]
  | select _ _ cases => cases.map Case.body
  | assign .. | call .. | const .. | dim .. | redim .. | procedure .. | classDecl .. | exit ..
  | onError .. | optionExplicit .. | includeFile _ _ none => []

/-- A statement is one of some statements, or it is in a body of one of them that shares their
frame. -/
inductive Under : List Stmt → Stmt → Prop
  | here {body : List Stmt} {stmt : Stmt} (mem : stmt ∈ body) : Under body stmt
  | inside {body inner : List Stmt} {outer stmt : Stmt} (mem : outer ∈ body)
    (own : inner ∈ outer.ownBodies) (under : Under inner stmt) : Under body stmt

theorem Under.mono {body more : List Stmt} {stmt : Stmt} (h : Under body stmt)
    (sub : body ⊆ more) : Under more stmt := by
  cases h with
  | here mem => exact .here (sub mem)
  | inside mem own under => exact .inside (sub mem) own under

/-- A property holds of all statements under some. -/
def Throughout (p : Stmt → Prop) (body : List Stmt) : Prop := ∀ stmt, Under body stmt → p stmt

theorem Throughout.here {stmt : Stmt} (h : Throughout p [stmt]) : p stmt :=
  h stmt (.here List.mem_cons_self)

theorem Throughout.inside {stmt : Stmt} {body : List Stmt} (h : Throughout p [stmt])
    (own : body ∈ stmt.ownBodies) : Throughout p body :=
  fun inner under => h inner (.inside List.mem_cons_self own under)

theorem Throughout.sub {body more : List Stmt} (h : Throughout p more) (sub : body ⊆ more) :
    Throughout p body :=
  fun stmt under => h stmt (under.mono sub)

theorem throughout_cons {stmt : Stmt} {rest : List Stmt} (h : Throughout p (stmt :: rest)) :
    Throughout p [stmt] ∧ Throughout p rest :=
  ⟨h.sub (List.cons_subset_cons _ (List.nil_subset _)), h.sub (List.subset_cons_self _ _)⟩

/-- What holds of all statements inside a statement holds of those that share its frame. -/
theorem Every.everyIn_ownBodies {stmt : Stmt} (h : stmt.Every p) :
    ∀ body ∈ stmt.ownBodies, EveryIn p body := by
  intro body own
  cases stmt with
  | includeFile span directive attached =>
    cases attached with
    | none => nomatch own
    | some content => exact h.attached (congrArg some (List.mem_singleton.mp own).symm)
  | property span kind decl isDefault =>
    cases decl
    exact h.inside body own
  | assign | call | const | dim | redim | procedure | classDecl | exit | onError
  | optionExplicit => nomatch own
  | _ => exact h.inside body own

theorem EveryIn.throughout {body : List Stmt} (h : EveryIn p body) : Throughout p body := by
  intro stmt under
  induction under with
  | here mem => exact (h _ mem).here
  | inside mem own _ ih => exact ih ((h _ mem).everyIn_ownBodies _ own)

theorem Every.throughout {stmt : Stmt} (h : stmt.Every p) : Throughout p [stmt] :=
  EveryIn.throughout (everyIn_cons.mpr ⟨h, everyIn_nil⟩)

/-- Whether a statement repeats its body for as long as a condition or a counter lets it. -/
def isLoop : Stmt → Bool
  | loop .. | count .. => true
  | _ => false

/-- Whether a statement is an include directive without its file. -/
def isUnresolved : Stmt → Bool
  | includeFile _ _ none => true
  | _ => false

theorem eq_of_isUnresolved {stmt : Stmt} (h : stmt.isUnresolved = true) :
    ∃ span directive, stmt = includeFile span directive none := by
  cases stmt with
  | includeFile span directive attached =>
    cases attached with
    | none => exact ⟨span, directive, rfl⟩
    | some => cases h
  | _ => cases h

theorem isUnresolved_withBodies (stmt : Stmt) (bs : List (List Stmt)) :
    (stmt.withBodies bs).isUnresolved = stmt.isUnresolved := by
  unfold withBodies
  split <;> rfl

end PageScript.Stmt
