import PageScript.Proofs.Syntax.Display.Trees

/-!
# Proofs/Syntax/Display/Statements — a statement is determined by its display

`Stmt.IsShown` says of a statement what is known of everything that is read from a source, as far as its
display depends on it: its names are names, its numbers are finite, its call is a call, and arrays get new
bounds in blocks of their own, which all have the mark that their first array shows.  Such a statement is
determined by its display, up to spans and the marks of arguments (`Stmt.shape_eq_of_display_eq`).
-/

namespace PageScript

/-! ## What comes from a source -/

/-- The names of a procedure are names of variables. -/
structure Procedure.IsNamed (decl : Procedure) : Prop where
  name : decl.name.IsVariable
  params : ∀ p ∈ decl.params, p.name.IsVariable

/-- An array gets new bounds that can be shown. -/
inductive Stmt.IsRebound (preserve : Bool) : Stmt → Prop
  | redim {s : Span} {name : Name} {bounds : List Expr} (h : name.IsVariable)
      (hbounds : ∀ e ∈ bounds, e.IsShown) : IsRebound preserve (.redim s name bounds preserve)

/-- The names of a statement are names, its numbers are finite, and what it holds has the form that the
readers give it. -/
inductive Stmt.IsShown : Stmt → Prop
  | block {s : Span} {body : List Stmt} (hbody : ∀ stmt ∈ body, stmt.IsShown) : IsShown (.block s body)
  /-- The name of the first array is not taken for the mark. -/
  | redims {s s' : Span} {name : Name} {bounds : List Expr} {preserve : Bool} {rest : List Stmt}
      (first : name.text = "preserve" → preserve = true)
      (h : ∀ stmt ∈ .redim s' name bounds preserve :: rest, stmt.IsRebound preserve) :
      IsShown (.block s (.redim s' name bounds preserve :: rest))
  | assign {s : Span} {target value : Expr} (htarget : target.IsShown) (hvalue : value.IsShown) :
      IsShown (.assign s target value)
  | call {s s' : Span} {callee : Expr} {args : List Arg} (h : (Expr.call s' callee args).IsShown) :
      IsShown (.call s (.call s' callee args))
  | const {s : Span} {name : Name} {value : Literal} (h : name.IsVariable) (hvalue : value.IsShown) :
      IsShown (.const s name value)
  | dim {s : Span} {name : Name} {bounds : Option (List Nat)} {access : Access} (h : name.IsVariable) :
      IsShown (.dim s name bounds access)
  | procedure {s : Span} {decl : Procedure} (h : decl.IsNamed) (hbody : ∀ stmt ∈ decl.body, stmt.IsShown) :
      IsShown (.procedure s decl)
  | classDecl {s : Span} {name : Name} {members : List Stmt} (h : name.IsVariable)
      (hmembers : ∀ stmt ∈ members, stmt.IsShown) : IsShown (.classDecl s name members)
  | property {s : Span} {kind : PropertyForm} {decl : Procedure} {isDefault : Bool} (h : decl.IsNamed)
      (hbody : ∀ stmt ∈ decl.body, stmt.IsShown) : IsShown (.property s kind decl isDefault)
  | branch {s : Span} {cond : Expr} {thenBody elseBody : List Stmt} (hcond : cond.IsShown)
      (hthen : ∀ stmt ∈ thenBody, stmt.IsShown) (helse : ∀ stmt ∈ elseBody, stmt.IsShown) :
      IsShown (.branch s cond thenBody elseBody)
  | loop {s : Span} {cond : Expr} {body : List Stmt} {untilTrue testsAfter : Bool} (hcond : cond.IsShown)
      (hbody : ∀ stmt ∈ body, stmt.IsShown) : IsShown (.loop s cond body untilTrue testsAfter)
  | count {s : Span} {var : Name} {first last step : Expr} {body : List Stmt} (h : var.IsVariable)
      (hfirst : first.IsShown) (hlast : last.IsShown) (hstep : step.IsShown)
      (hbody : ∀ stmt ∈ body, stmt.IsShown) : IsShown (.count s var first last step body)
  | forEach {s : Span} {var : Name} {collection : Expr} {body : List Stmt} (h : var.IsVariable)
      (hcollection : collection.IsShown) (hbody : ∀ stmt ∈ body, stmt.IsShown) :
      IsShown (.forEach s var collection body)
  | select {s : Span} {subject : Expr} {cases : List Case} (hsubject : subject.IsShown)
      (hconditions : ∀ found ∈ cases, ∀ es ∈ found.conditions, ∀ e ∈ es, e.IsShown)
      (hbodies : ∀ found ∈ cases, ∀ stmt ∈ found.body, stmt.IsShown) : IsShown (.select s subject cases)
  | withObject {s : Span} {object : Expr} {body : List Stmt} (hobject : object.IsShown)
      (hbody : ∀ stmt ∈ body, stmt.IsShown) : IsShown (.withObject s object body)
  | exit {s : Span} {kind : ExitTarget} : IsShown (.exit s kind)
  | onError {s : Span} {kind : ErrorPolicy} : IsShown (.onError s kind)
  | optionExplicit {s : Span} {on : Bool} : IsShown (.optionExplicit s on)
  | directive {s : Span} {directive : Include} : IsShown (.includeFile s directive none)

namespace Stmt

theorem trees_eq_map (body : List Stmt) : trees body = body.map tree := by
  induction body with
  | nil => rfl
  | cons stmt rest ih => exact congrArg (stmt.tree :: ·) ih

theorem shapes_eq_map (body : List Stmt) : shapes body = body.map shape := by
  induction body with
  | nil => rfl
  | cons stmt rest ih => exact congrArg (stmt.shape :: ·) ih

theorem treesOfCases_eq_map (cases : List Case) : treesOfCases cases = cases.map Case.tree := by
  induction cases with
  | nil => rfl
  | cons found rest ih => exact congrArg (found.tree :: ·) ih

theorem shapesOfCases_eq_map (cases : List Case) : shapesOfCases cases = cases.map Case.shape := by
  induction cases with
  | nil => rfl
  | cons found rest ih => exact congrArg (found.shape :: ·) ih

/-! ## The forms of statements -/

/-- The forms of statements, told by the first word of their trees. -/
inductive Form where
  | block | assign | call | const | dim | redim | procedure | classDecl | property | branch | loop | count
  | forEach | select | withObject | exit | onError | optionExplicit | includeFile

/-- The form of a statement. -/
def form : Stmt → Form
  | .block .. => .block
  | .assign .. => .assign
  | .call .. => .call
  | .const .. => .const
  | .dim .. => .dim
  | .redim .. => .redim
  | .procedure .. => .procedure
  | .classDecl .. => .classDecl
  | .property .. => .property
  | .branch .. => .branch
  | .loop .. => .loop
  | .count .. => .count
  | .forEach .. => .forEach
  | .select .. => .select
  | .withObject .. => .withObject
  | .exit .. => .exit
  | .onError .. => .onError
  | .optionExplicit .. => .optionExplicit
  | .includeFile .. => .includeFile

/-- The words that the trees of statements start with; a procedure starts with other ones. -/
def heads : List (String × Form) :=
  [("block", .block), ("assign", .assign), ("call", .call), ("const", .const), ("dim", .dim),
    ("redim", .redim), ("class", .classDecl), ("property", .property), ("if", .branch), ("loop", .loop),
    ("for", .count), ("foreach", .forEach), ("select", .select), ("with", .withObject), ("exit", .exit),
    ("on-error", .onError), ("option", .optionExplicit), ("include", .includeFile)]

/-- The form of the statement that is shown as a tree. -/
def formOf : Tree → Form
  | .row .round (.word text :: _) => (heads.lookup text).getD .procedure
  | _ => .procedure

theorem IsShown.formOf_tree {stmt : Stmt} (h : stmt.IsShown) : formOf stmt.tree = stmt.form := by
  cases h with
  | @procedure _ decl =>
    obtain ⟨name, kind, params, body, access⟩ := decl
    cases access <;> cases kind <;> rfl
  | _ => rfl

variable {stmt stmt' : Stmt} {body body' : List Stmt}

theorem IsShown.form_eq (h : stmt.IsShown) (h' : stmt'.IsShown) (same : stmt.tree = stmt'.tree) :
    stmt.form = stmt'.form := by
  rw [← h.formOf_tree, ← h'.formOf_tree, same]

end Stmt

/-! ## Proper words -/

theorem Tree.allProper_flag {text : String} (h : IsPlain text.toList) (holds : Bool) :
    Tree.AllProper (flag text holds) := by
  cases holds with
  | false => exact .nil
  | true => exact .one (.word h)

theorem Tree.allProper_bounds (sizes : Option (List Nat)) : AllProper (bounds sizes) := by
  cases sizes with
  | none => exact .nil
  | some sizes => exact .one (.row (AllProper.map fun n _ => .word (isPlain_toString n)))

theorem ProcedureForm.isPlain_word (kind : ProcedureForm) : Tree.IsPlain kind.word.toList := by
  cases kind <;> exact .of_chars rfl rfl

theorem PropertyForm.isPlain_word (kind : PropertyForm) : Tree.IsPlain kind.word.toList := by
  cases kind <;> exact .of_chars rfl rfl

theorem ExitTarget.isPlain_word (kind : ExitTarget) : Tree.IsPlain kind.word.toList := by
  cases kind <;> exact .of_chars rfl rfl

theorem ErrorPolicy.isPlain_word (kind : ErrorPolicy) : Tree.IsPlain kind.word.toList := by
  cases kind <;> exact .of_chars rfl rfl

/-- A word that is one of two. -/
theorem Tree.isPlain_choice {text text' : String} (h : IsPlain text.toList) (h' : IsPlain text'.toList)
    (b : Bool) : IsPlain (if b then text else text').toList := by
  cases b with
  | false => exact h'
  | true => exact h

theorem Procedure.IsNamed.allProper {decl : Procedure} (h : decl.IsNamed)
    (hbody : ∀ stmt ∈ decl.body, stmt.tree.Proper) : Tree.AllProper decl.trees := by
  obtain ⟨name, kind, params, body, access⟩ := decl
  have hparams : Tree.AllProper (params.flatMap Param.trees) := by
    refine List.forall_mem_flatMap.mpr fun p hp => ?_
    exact Tree.AllProper.append (Tree.allProper_flag (.of_chars rfl rfl) _) (.one (h.params p hp).1.proper)
  rw [trees, Stmt.trees_eq_map]
  exact .append (Tree.allProper_flag (.of_chars rfl rfl) _) <| .cons (.word kind.isPlain_word) <|
    .cons h.name.1.proper <| .cons (.row hparams) (.map hbody)

theorem Case.proper {found : Case} (hconditions : ∀ es ∈ found.conditions, ∀ e ∈ es, e.IsShown)
    (hbody : ∀ stmt ∈ found.body, stmt.tree.Proper) : found.tree.Proper := by
  obtain ⟨conditions, body⟩ := found
  have shown : (Tree.conditions conditions).Proper := by
    cases conditions with
    | none => exact .word (.of_chars rfl rfl)
    | some es => exact .row (Tree.AllProper.map fun e he => (hconditions es rfl e he).proper)
  rw [tree, Stmt.trees_eq_map]
  exact .headed (.of_chars rfl rfl) (.cons shown (.map hbody))

theorem Stmt.IsRebound.proper {preserve : Bool} {stmt : Stmt} (h : stmt.IsRebound preserve) :
    stmt.tree.Proper := by
  cases h with
  | redim h hbounds =>
    refine .headed (.of_chars rfl rfl) (.append (Tree.allProper_flag (.of_chars rfl rfl) _) ?_)
    exact .cons h.1.proper (.map fun e he => (hbounds e he).proper)

theorem Include.allProper (directive : Include) : Tree.AllProper directive.trees :=
  .cons (.word (.of_chars rfl rfl)) <| .cons
    (.word (Tree.isPlain_choice (.of_chars rfl rfl) (.of_chars rfl rfl) _)) (.one (.quoted _))

/-- The words of the tree are proper. -/
theorem Stmt.IsShown.proper {stmt : Stmt} (h : stmt.IsShown) : stmt.tree.Proper := by
  have trees {body : List Stmt} (h : ∀ stmt ∈ body, stmt.tree.Proper) : Tree.AllProper (Stmt.trees body) := by
    rw [trees_eq_map]
    exact .map h
  induction h with
  | block _ ih => exact .headed (.of_chars rfl rfl) (trees ih)
  | redims _ h => exact .headed (.of_chars rfl rfl) (trees fun stmt mem => (h stmt mem).proper)
  | assign htarget hvalue => exact .headed (.of_chars rfl rfl) (.cons htarget.proper (.one hvalue.proper))
  | call h => exact h.proper
  | const h hvalue => exact .headed (.of_chars rfl rfl) (.cons h.1.proper (.one hvalue.proper))
  | @dim _ _ bounds access h =>
    exact .headed (.of_chars rfl rfl)
      (.append (Tree.allProper_flag (.of_chars rfl rfl) _) (.cons h.1.proper (Tree.allProper_bounds bounds)))
  | procedure h _ ih => exact .row (h.allProper ih)
  | classDecl h _ ih => exact .headed (.of_chars rfl rfl) (.cons h.1.proper (trees ih))
  | @property _ kind _ _ h _ ih =>
    exact .headed (.of_chars rfl rfl) (.append (Tree.allProper_flag (.of_chars rfl rfl) _)
      (.cons (.word kind.isPlain_word) (h.allProper ih)))
  | @branch _ _ _ elseBody hcond _ _ ih ih' =>
    refine .headed (.of_chars rfl rfl) (.cons hcond.proper (.cons (.headed (.of_chars rfl rfl) (trees ih)) ?_))
    have proper := trees ih'
    cases elseBody with
    | nil => exact .nil
    | cons => exact .one (.headed (.of_chars rfl rfl) proper)
  | loop hcond _ ih =>
    exact .headed (.of_chars rfl rfl) <| .cons
      (.word (Tree.isPlain_choice (.of_chars rfl rfl) (.of_chars rfl rfl) _)) <| .cons
        (.word (Tree.isPlain_choice (.of_chars rfl rfl) (.of_chars rfl rfl) _)) <| .cons hcond.proper (trees ih)
  | count h hfirst hlast hstep _ ih =>
    exact .headed (.of_chars rfl rfl) <| .cons h.1.proper <| .cons hfirst.proper <| .cons hlast.proper <|
      .cons hstep.proper (trees ih)
  | forEach h hcollection _ ih =>
    exact .headed (.of_chars rfl rfl) (.cons h.1.proper (.cons hcollection.proper (trees ih)))
  | select hsubject hconditions _ ih =>
    refine .headed (.of_chars rfl rfl) (.cons hsubject.proper ?_)
    rw [treesOfCases_eq_map]
    exact .map fun found mem => Case.proper (hconditions found mem) (ih found mem)
  | withObject hobject _ ih => exact .headed (.of_chars rfl rfl) (.cons hobject.proper (trees ih))
  | @exit _ kind => exact .headed (.of_chars rfl rfl) (.one (.word kind.isPlain_word))
  | @onError _ kind => exact .headed (.of_chars rfl rfl) (.one (.word kind.isPlain_word))
  | optionExplicit =>
    exact .headed (.of_chars rfl rfl) (.cons (.word (.of_chars rfl rfl))
      (.one (.word (Tree.isPlain_choice (.of_chars rfl rfl) (.of_chars rfl rfl) _))))
  | @directive _ directive => exact .row directive.allProper

/-! ## Statements -/

theorem Tree.flag_append_inj {text : String} {b b' : Bool} {t t' : Tree} {ts ts' : List Tree}
    (h : t = .word text → b = true) (h' : t' = .word text → b' = true)
    (same : flag text b ++ t :: ts = flag text b' ++ t' :: ts') : b = b' ∧ t = t' ∧ ts = ts' := by
  cases b <;> cases b'
  · exact ⟨rfl, List.cons.inj same⟩
  · exact nomatch h (List.cons.inj same).1
  · exact nomatch h' (List.cons.inj same).1.symm
  · exact ⟨rfl, List.cons.inj (List.cons.inj same).2⟩

theorem Access.append_inj {access access' : Access} {t t' : Tree} {ts ts' : List Tree}
    (h : t ≠ .word "private") (h' : t' ≠ .word "private")
    (same : access.trees ++ t :: ts = access'.trees ++ t' :: ts') : access = access' ∧ t = t' ∧ ts = ts' := by
  obtain ⟨access_eq, rest⟩ := Tree.flag_append_inj (fun word => absurd word h) (fun word => absurd word h') same
  refine ⟨?_, rest⟩
  cases access <;> cases access' <;> first | rfl | exact nomatch access_eq

theorem Name.IsVariable.word_ne {name : Name} (h : name.IsVariable) (k : Keyword) :
    Tree.word name.text ≠ .word k.spelling := fun same => h.ne_spelling k (Tree.word.inj same)

theorem params_eq_of_trees_eq : ∀ {params params' : List Param}, (∀ p ∈ params, p.name.IsVariable) →
    (∀ p ∈ params', p.name.IsVariable) → params.flatMap Param.trees = params'.flatMap Param.trees →
      params = params'
  | [], [], _, _, _ => rfl
  | [], ⟨_, byRef⟩ :: _, _, _, same => by cases byRef <;> cases same
  | ⟨_, byRef⟩ :: _, [], _, _, same => by cases byRef <;> cases same
  | ⟨name, byRef⟩ :: params, ⟨name', byRef'⟩ :: params', h, h', same => by
    have flags : Tree.flag "byref" byRef ++ .word name.text :: params.flatMap Param.trees =
        Tree.flag "byref" byRef' ++ .word name'.text :: params'.flatMap Param.trees := by
      simpa [Param.trees] using same
    obtain ⟨hp, hps⟩ := List.forall_mem_cons.mp h
    obtain ⟨hp', hps'⟩ := List.forall_mem_cons.mp h'
    obtain ⟨rfl, names, further⟩ := Tree.flag_append_inj
      (fun word => absurd word (hp.word_ne .byRefWord)) (fun word => absurd word (hp'.word_ne .byRefWord)) flags
    obtain rfl : name = name' := Name.ext (Tree.word.inj names)
    rw [params_eq_of_trees_eq hps hps' further]

theorem ProcedureForm.word_inj {kind kind' : ProcedureForm} (h : kind.word = kind'.word) : kind = kind' := by
  cases kind <;> cases kind' <;> first | rfl | exact absurd h (by decide)

theorem PropertyForm.word_inj {kind kind' : PropertyForm} (h : kind.word = kind'.word) : kind = kind' := by
  cases kind <;> cases kind' <;> first | rfl | exact absurd h (by decide)

theorem ExitTarget.word_inj {kind kind' : ExitTarget} (h : kind.word = kind'.word) : kind = kind' := by
  cases kind <;> cases kind' <;> first | rfl | exact absurd h (by decide)

theorem ErrorPolicy.word_inj {kind kind' : ErrorPolicy} (h : kind.word = kind'.word) : kind = kind' := by
  cases kind <;> cases kind' <;> first | rfl | exact absurd h (by decide)

theorem Tree.choice_inj {text text' : String} (other : text ≠ text') {b b' : Bool}
    (h : (if b then text else text') = if b' then text else text') : b = b' := by
  cases b <;> cases b' <;> first | rfl | exact absurd h other | exact absurd h.symm other

theorem Tree.bounds_inj {sizes sizes' : Option (List Nat)} (h : bounds sizes = bounds sizes') :
    sizes = sizes' := by
  cases sizes <;> cases sizes'
  · rfl
  · cases h
  · cases h
  · simp only [bounds, List.cons.injEq, row.injEq, true_and, and_true] at h
    exact congrArg some (List.map_injective_iff.mpr (fun _ _ same => eq_of_toString_eq (Tree.word.inj same)) h)

theorem Tree.otherwise_inj {ts us : List Tree} (h : otherwise ts = otherwise us) : ts = us := by
  cases ts <;> cases us
  · rfl
  · cases h
  · cases h
  · simpa [otherwise] using h

theorem exprs_eq_of_trees_eq {es es' : List Expr} (h : ∀ e ∈ es, e.IsShown) (h' : ∀ e ∈ es', e.IsShown) :
    es.map Expr.tree = es'.map Expr.tree → es.map Expr.shape = es'.map Expr.shape :=
  map_eq_of_map_eq fun e he e' he' => (h e he).isTold (h' e' he')

/-- The tree of the statement is that of no other one, up to what is not shown. -/
def Stmt.IsTold (stmt : Stmt) : Prop :=
  ∀ ⦃stmt' : Stmt⦄, stmt'.IsShown → stmt.tree = stmt'.tree → stmt.shape = stmt'.shape

section

variable {body body' : List Stmt}

theorem Stmt.shapes_eq (told : ∀ stmt ∈ body, stmt.IsTold) (shown : ∀ stmt ∈ body', stmt.IsShown)
    (same : trees body = trees body') : shapes body = shapes body' := by
  rw [trees_eq_map, trees_eq_map] at same
  rw [shapes_eq_map, shapes_eq_map]
  exact map_eq_of_map_eq (fun stmt mem stmt' mem' => told stmt mem (shown stmt' mem')) same

theorem Procedure.shape_eq {decl decl' : Procedure} (h : decl.IsNamed) (h' : decl'.IsNamed)
    (told : ∀ stmt ∈ decl.body, stmt.IsTold) (shown : ∀ stmt ∈ decl'.body, stmt.IsShown)
    (same : decl.trees = decl'.trees) : decl.shape = decl'.shape := by
  obtain ⟨name, kind, params, body, access⟩ := decl
  obtain ⟨name', kind', params', body', access'⟩ := decl'
  have other (kind : ProcedureForm) : Tree.word kind.word ≠ .word "private" := by
    cases kind <;> exact fun same => absurd (Tree.word.inj same) (by decide)
  obtain ⟨rfl, kinds, rest⟩ := Access.append_inj (other kind) (other kind') same
  obtain rfl := ProcedureForm.word_inj (Tree.word.inj kinds)
  simp only [List.cons.injEq, Tree.word.injEq, Tree.row.injEq, true_and] at rest
  obtain ⟨names, params, bodies⟩ := rest
  obtain rfl : name = name' := Name.ext names
  obtain rfl := params_eq_of_trees_eq h.params h'.params params
  exact congrArg (Procedure.mk name kind _ · access) (Stmt.shapes_eq told shown bodies)

theorem Case.shape_eq {found found' : Case} (hconditions : ∀ es ∈ found.conditions, ∀ e ∈ es, e.IsShown)
    (hconditions' : ∀ es ∈ found'.conditions, ∀ e ∈ es, e.IsShown)
    (told : ∀ stmt ∈ found.body, stmt.IsTold) (shown : ∀ stmt ∈ found'.body, stmt.IsShown)
    (same : found.tree = found'.tree) : found.shape = found'.shape := by
  obtain ⟨conditions, body⟩ := found
  obtain ⟨conditions', body'⟩ := found'
  simp only [tree, Tree.row.injEq, List.cons.injEq, true_and] at same
  obtain ⟨conditions_eq, bodies⟩ := same
  refine congrArg₂ Case.mk ?_ (Stmt.shapes_eq told shown bodies)
  match conditions, conditions' with
  | none, none => rfl
  | none, some _ => cases conditions_eq
  | some _, none => cases conditions_eq
  | some es, some es' =>
    exact congrArg some (exprs_eq_of_trees_eq (hconditions es rfl) (hconditions' es' rfl)
      (Tree.row.inj conditions_eq).2)

theorem Stmt.IsRebound.shape_eq {preserve : Bool} {stmt stmt' : Stmt} (h : stmt.IsRebound preserve)
    (h' : stmt'.IsRebound preserve) (same : stmt.tree = stmt'.tree) : stmt.shape = stmt'.shape := by
  cases h with
  | @redim _ name _ _ hbounds =>
    cases h' with
    | @redim _ name' _ _ hbounds' =>
      simp only [tree, Tree.row.injEq, List.cons.injEq, true_and, List.append_cancel_left_eq,
        Tree.word.injEq] at same
      obtain rfl : name = name' := Name.ext same.1
      exact congrArg (Stmt.redim .origin name · preserve) (exprs_eq_of_trees_eq hbounds hbounds' same.2)

/-- Statements in blocks of arrays show their common mark. -/
theorem Stmt.redims_eq {s s' : Span} {name name' : Name} {bounds bounds' : List Expr}
    {preserve preserve' : Bool} {rest rest' : List Stmt} (first : name.text = "preserve" → preserve = true)
    (first' : name'.text = "preserve" → preserve' = true)
    (h : ∀ stmt ∈ redim s name bounds preserve :: rest, stmt.IsRebound preserve)
    (h' : ∀ stmt ∈ redim s' name' bounds' preserve' :: rest', stmt.IsRebound preserve')
    (same : trees (redim s name bounds preserve :: rest) = trees (redim s' name' bounds' preserve' :: rest')) :
    shapes (redim s name bounds preserve :: rest) = shapes (redim s' name' bounds' preserve' :: rest') := by
  have heads := (List.cons.inj same).1
  simp only [tree, Tree.row.injEq, List.cons.injEq, true_and] at heads
  obtain ⟨rfl, -, -⟩ := Tree.flag_append_inj (fun word => first (Tree.word.inj word))
    (fun word => first' (Tree.word.inj word)) heads
  rw [trees_eq_map, trees_eq_map] at same
  rw [shapes_eq_map, shapes_eq_map]
  exact map_eq_of_map_eq (fun stmt mem stmt' mem' => (h stmt mem).shape_eq (h' stmt' mem')) same

/-- A block of arrays is no other block: outside of one no array gets new bounds. -/
theorem Stmt.trees_ne_redim {s : Span} {name : Name} {bounds : List Expr} {preserve : Bool} {rest : List Stmt}
    (h : ∀ stmt ∈ body, stmt.IsShown) : trees body ≠ trees (redim s name bounds preserve :: rest) := by
  intro same
  cases body with
  | nil => cases same
  | cons stmt body =>
    have shown := h stmt List.mem_cons_self
    have form := shown.formOf_tree
    rw [(List.cons.inj same).1] at form
    cases shown <;> cases form

/-! ## One form after the other -/

/-- It is enough to compare it with statements of its form. -/
theorem Stmt.IsTold.of_form {stmt : Stmt} (h : stmt.IsShown)
    (hform : ∀ stmt' : Stmt, stmt'.IsShown → stmt.form = stmt'.form → stmt.tree = stmt'.tree →
      stmt.shape = stmt'.shape) : stmt.IsTold :=
  fun _ h' same => hform _ h' (h.form_eq h' same) same

namespace Stmt

variable {s s' : Span} {name : Name} {target value callee : Expr} {args : List Arg} {bounds : List Expr}
  {preserve : Bool} {rest : List Stmt} {decl : Procedure}

theorem isTold_block (hbody : ∀ stmt ∈ body, stmt.IsShown) (told : ∀ stmt ∈ body, stmt.IsTold) :
    (block s body).IsTold := by
  refine .of_form (.block hbody) fun stmt' h' form same => ?_
  cases h' with
  | block hbody' =>
    simp only [tree, Tree.row.injEq, List.cons.injEq, true_and] at same
    exact congrArg (Stmt.block .origin) (shapes_eq told hbody' same)
  | redims =>
    simp only [tree, Tree.row.injEq, List.cons.injEq, true_and] at same
    exact absurd same (trees_ne_redim hbody)
  | _ => cases form

/-- Arrays with new bounds are told as one block, since the first one shows their common mark. -/
theorem isTold_redims (first : name.text = "preserve" → preserve = true)
    (h : ∀ stmt ∈ redim s' name bounds preserve :: rest, stmt.IsRebound preserve) :
    (block s (redim s' name bounds preserve :: rest)).IsTold := by
  refine .of_form (.redims first h) fun stmt' h' form same => ?_
  cases h' with
  | block hbody' =>
    simp only [tree, Tree.row.injEq, List.cons.injEq, true_and] at same
    exact absurd same.symm (trees_ne_redim hbody')
  | redims first' h' =>
    simp only [tree, Tree.row.injEq, List.cons.injEq, true_and] at same
    exact congrArg (Stmt.block .origin) (redims_eq first first' h h' same)
  | _ => cases form

theorem isTold_assign (htarget : target.IsShown) (hvalue : value.IsShown) :
    (assign s target value).IsTold := by
  refine .of_form (.assign htarget hvalue) fun stmt' h' form same => ?_
  cases h' with
  | assign htarget' hvalue' =>
    simp only [tree, Tree.row.injEq, List.cons.injEq, true_and, and_true] at same
    exact congrArg₂ (Stmt.assign .origin) (htarget.isTold htarget' same.1) (hvalue.isTold hvalue' same.2)
  | _ => cases form

theorem isTold_call (h : (Expr.call s' callee args).IsShown) : (call s (.call s' callee args)).IsTold := by
  refine .of_form (.call h) fun stmt' h' form same => ?_
  cases h' with
  | call h' => exact congrArg (Stmt.call .origin) (h.isTold h' same)
  | _ => cases form

theorem isTold_const {value : Literal} (h : name.IsVariable) (hvalue : value.IsShown) :
    (const s name value).IsTold := by
  refine .of_form (.const h hvalue) fun stmt' h' form same => ?_
  cases h' with
  | const _ hvalue' =>
    simp only [tree, Tree.row.injEq, List.cons.injEq, Tree.word.injEq, true_and, and_true] at same
    exact congrArg₂ (Stmt.const .origin) (Name.ext same.1) (Literal.eq_of_tree_eq hvalue hvalue' same.2)
  | _ => cases form

theorem isTold_dim {sizes : Option (List Nat)} {access : Access} (h : name.IsVariable) :
    (dim s name sizes access).IsTold := by
  refine .of_form (.dim h) fun stmt' h' form same => ?_
  cases h' with
  | dim h' =>
    simp only [tree, Tree.row.injEq, List.cons.injEq, true_and] at same
    obtain ⟨rfl, names, bounds⟩ :=
      Access.append_inj (h.word_ne .privateWord) (h'.word_ne .privateWord) same
    exact congrArg₂ (Stmt.dim .origin · · access) (Name.ext (Tree.word.inj names)) (Tree.bounds_inj bounds)
  | _ => cases form

theorem isTold_procedure (h : decl.IsNamed) (hbody : ∀ stmt ∈ decl.body, stmt.IsShown)
    (told : ∀ stmt ∈ decl.body, stmt.IsTold) : (procedure s decl).IsTold := by
  refine .of_form (.procedure h hbody) fun stmt' h' form same => ?_
  cases h' with
  | procedure h' hbody' =>
    exact congrArg (Stmt.procedure .origin) (Procedure.shape_eq h h' told hbody' (Tree.row.inj same).2)
  | _ => cases form

theorem isTold_classDecl (h : name.IsVariable) (hmembers : ∀ stmt ∈ body, stmt.IsShown)
    (told : ∀ stmt ∈ body, stmt.IsTold) : (classDecl s name body).IsTold := by
  refine .of_form (.classDecl h hmembers) fun stmt' h' form same => ?_
  cases h' with
  | classDecl _ hmembers' =>
    simp only [tree, Tree.row.injEq, List.cons.injEq, Tree.word.injEq, true_and] at same
    exact congrArg₂ (Stmt.classDecl .origin) (Name.ext same.1) (shapes_eq told hmembers' same.2)
  | _ => cases form

theorem isTold_property {kind : PropertyForm} {isDefault : Bool} (h : decl.IsNamed)
    (hbody : ∀ stmt ∈ decl.body, stmt.IsShown) (told : ∀ stmt ∈ decl.body, stmt.IsTold) :
    (property s kind decl isDefault).IsTold := by
  refine .of_form (.property h hbody) fun stmt' h' form same => ?_
  have other (kind : PropertyForm) (b : Bool) (word : Tree.word kind.word = .word "default") : b = true := by
    cases kind <;> exact absurd (Tree.word.inj word) (by decide)
  cases h' with
  | property h' hbody' =>
    simp only [tree, Tree.row.injEq, List.cons.injEq, true_and] at same
    obtain ⟨rfl, kinds, decls⟩ := Tree.flag_append_inj (other _ _) (other _ _) same
    obtain rfl := PropertyForm.word_inj (Tree.word.inj kinds)
    exact congrArg (Stmt.property .origin kind · isDefault) (Procedure.shape_eq h h' told hbody' decls)
  | _ => cases form

theorem isTold_branch {cond : Expr} (hcond : cond.IsShown) (hthen : ∀ stmt ∈ body, stmt.IsShown)
    (helse : ∀ stmt ∈ body', stmt.IsShown) (told : ∀ stmt ∈ body, stmt.IsTold)
    (told' : ∀ stmt ∈ body', stmt.IsTold) : (branch s cond body body').IsTold := by
  refine .of_form (.branch hcond hthen helse) fun stmt' h' form same => ?_
  cases h' with
  | branch hcond' hthen' helse' =>
    simp only [tree, Tree.row.injEq, List.cons.injEq, true_and] at same
    obtain ⟨conds, thens, elses⟩ := same
    rw [shape, shape, hcond.isTold hcond' conds, shapes_eq told hthen' thens,
      shapes_eq told' helse' (Tree.otherwise_inj elses)]
  | _ => cases form

theorem isTold_loop {cond : Expr} {untilTrue testsAfter : Bool} (hcond : cond.IsShown)
    (hbody : ∀ stmt ∈ body, stmt.IsShown) (told : ∀ stmt ∈ body, stmt.IsTold) :
    (loop s cond body untilTrue testsAfter).IsTold := by
  refine .of_form (.loop hcond hbody) fun stmt' h' form same => ?_
  cases h' with
  | loop hcond' hbody' =>
    simp only [tree, Tree.row.injEq, List.cons.injEq, Tree.word.injEq, true_and] at same
    obtain ⟨senses, places, conds, bodies⟩ := same
    obtain rfl := Tree.choice_inj (by decide) senses
    obtain rfl := Tree.choice_inj (by decide) places
    rw [shape, shape, hcond.isTold hcond' conds, shapes_eq told hbody' bodies]
  | _ => cases form

theorem isTold_count {first last step : Expr} (h : name.IsVariable) (hfirst : first.IsShown)
    (hlast : last.IsShown) (hstep : step.IsShown) (hbody : ∀ stmt ∈ body, stmt.IsShown)
    (told : ∀ stmt ∈ body, stmt.IsTold) : (count s name first last step body).IsTold := by
  refine .of_form (.count h hfirst hlast hstep hbody) fun stmt' h' form same => ?_
  cases h' with
  | count h' hfirst' hlast' hstep' hbody' =>
    simp only [tree, Tree.row.injEq, List.cons.injEq, Tree.word.injEq, true_and] at same
    obtain ⟨names, firsts, lasts, steps, bodies⟩ := same
    rw [shape, shape, Name.ext names, hfirst.isTold hfirst' firsts, hlast.isTold hlast' lasts,
      hstep.isTold hstep' steps, shapes_eq told hbody' bodies]
  | _ => cases form

theorem isTold_forEach {collection : Expr} (h : name.IsVariable) (hcollection : collection.IsShown)
    (hbody : ∀ stmt ∈ body, stmt.IsShown) (told : ∀ stmt ∈ body, stmt.IsTold) :
    (forEach s name collection body).IsTold := by
  refine .of_form (.forEach h hcollection hbody) fun stmt' h' form same => ?_
  cases h' with
  | forEach h' hcollection' hbody' =>
    simp only [tree, Tree.row.injEq, List.cons.injEq, Tree.word.injEq, true_and] at same
    obtain ⟨names, collections, bodies⟩ := same
    rw [shape, shape, Name.ext names, hcollection.isTold hcollection' collections,
      shapes_eq told hbody' bodies]
  | _ => cases form

theorem isTold_select {subject : Expr} {cases : List Case} (hsubject : subject.IsShown)
    (hconditions : ∀ found ∈ cases, ∀ es ∈ found.conditions, ∀ e ∈ es, e.IsShown)
    (hbodies : ∀ found ∈ cases, ∀ stmt ∈ found.body, stmt.IsShown)
    (told : ∀ found ∈ cases, ∀ stmt ∈ found.body, stmt.IsTold) : (select s subject cases).IsTold := by
  refine .of_form (.select hsubject hconditions hbodies) fun stmt' h' form same => ?_
  cases h' with
  | select hsubject' hconditions' hbodies' =>
    simp only [tree, Tree.row.injEq, List.cons.injEq, true_and] at same
    obtain ⟨subjects, cases_eq⟩ := same
    rw [treesOfCases_eq_map, treesOfCases_eq_map] at cases_eq
    rw [shape, shape, shapesOfCases_eq_map, shapesOfCases_eq_map, hsubject.isTold hsubject' subjects]
    refine congrArg (Stmt.select .origin _) (map_eq_of_map_eq (fun found mem found' mem' => ?_) cases_eq)
    exact Case.shape_eq (hconditions found mem) (hconditions' found' mem') (told found mem)
      (hbodies' found' mem')
  | _ => cases form

theorem isTold_withObject {object : Expr} (hobject : object.IsShown) (hbody : ∀ stmt ∈ body, stmt.IsShown)
    (told : ∀ stmt ∈ body, stmt.IsTold) : (withObject s object body).IsTold := by
  refine .of_form (.withObject hobject hbody) fun stmt' h' form same => ?_
  cases h' with
  | withObject hobject' hbody' =>
    simp only [tree, Tree.row.injEq, List.cons.injEq, true_and] at same
    exact congrArg₂ (Stmt.withObject .origin) (hobject.isTold hobject' same.1) (shapes_eq told hbody' same.2)
  | _ => cases form

theorem isTold_exit {kind : ExitTarget} : (exit s kind).IsTold := by
  refine .of_form .exit fun stmt' h' form same => ?_
  cases h' with
  | exit =>
    simp only [tree, Tree.row.injEq, List.cons.injEq, Tree.word.injEq, true_and, and_true] at same
    exact congrArg (Stmt.exit .origin) (ExitTarget.word_inj same)
  | _ => cases form

theorem isTold_onError {kind : ErrorPolicy} : (onError s kind).IsTold := by
  refine .of_form .onError fun stmt' h' form same => ?_
  cases h' with
  | onError =>
    simp only [tree, Tree.row.injEq, List.cons.injEq, Tree.word.injEq, true_and, and_true] at same
    exact congrArg (Stmt.onError .origin) (ErrorPolicy.word_inj same)
  | _ => cases form

theorem isTold_optionExplicit {on : Bool} : (optionExplicit s on).IsTold := by
  refine .of_form .optionExplicit fun stmt' h' form same => ?_
  cases h' with
  | optionExplicit =>
    simp only [tree, Tree.row.injEq, List.cons.injEq, Tree.word.injEq, true_and, and_true] at same
    exact congrArg (Stmt.optionExplicit .origin) (Tree.choice_inj (by decide) same)
  | _ => cases form

theorem isTold_includeFile {directive : Include} : (includeFile s directive none).IsTold := by
  refine .of_form .directive fun stmt' h' form same => ?_
  cases h' with
  | @directive _ directive' =>
    obtain ⟨path, isVirtual⟩ := directive
    obtain ⟨path', isVirtual'⟩ := directive'
    simp only [tree, Include.trees, Tree.row.injEq, List.cons.injEq, Tree.word.injEq, Tree.quoted.injEq,
      true_and, and_true] at same
    obtain rfl := Tree.choice_inj (by decide) same.1
    obtain rfl : path = path' := same.2
    rfl
  | _ => cases form

/-- A statement is told by its tree. -/
theorem IsShown.isTold {stmt : Stmt} (h : stmt.IsShown) : stmt.IsTold := by
  induction h with
  | block hbody ih => exact isTold_block hbody ih
  | redims first h => exact isTold_redims first h
  | assign htarget hvalue => exact isTold_assign htarget hvalue
  | call h => exact isTold_call h
  | const h hvalue => exact isTold_const h hvalue
  | dim h => exact isTold_dim h
  | procedure h hbody ih => exact isTold_procedure h hbody ih
  | classDecl h hmembers ih => exact isTold_classDecl h hmembers ih
  | property h hbody ih => exact isTold_property h hbody ih
  | branch hcond hthen helse ih ih' => exact isTold_branch hcond hthen helse ih ih'
  | loop hcond hbody ih => exact isTold_loop hcond hbody ih
  | count h hfirst hlast hstep hbody ih => exact isTold_count h hfirst hlast hstep hbody ih
  | forEach h hcollection hbody ih => exact isTold_forEach h hcollection hbody ih
  | select hsubject hconditions hbodies ih => exact isTold_select hsubject hconditions hbodies ih
  | withObject hobject hbody ih => exact isTold_withObject hobject hbody ih
  | exit => exact isTold_exit
  | onError => exact isTold_onError
  | optionExplicit => exact isTold_optionExplicit
  | directive => exact isTold_includeFile

end Stmt

/-- **Statements are told by their displays**, up to spans and the marks of arguments. -/
theorem Stmt.shape_eq_of_display_eq {stmt stmt' : Stmt} (h : stmt.IsShown) (h' : stmt'.IsShown)
    (same : stmt.display = stmt'.display) : stmt.shape = stmt'.shape := by
  refine h.isTold h' (Tree.eq_of_print_eq h.proper h'.proper ?_)
  rw [← toList_display, ← toList_display, same]

end

end PageScript
