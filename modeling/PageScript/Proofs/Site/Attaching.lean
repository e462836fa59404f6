import Mathlib.Data.List.Forall2
import PageScript.Proofs.Syntax.Nesting
import PageScript.Site.Include

/-!
# Proofs/Site/Attaching — attaching files is one pass over the include directives

`Stmt.expand` goes through a statement form by form, but does the same for each: it expands the bodies
in order and puts them back.  So what a pass does is settled by what `attach` does with the
directives that it meets (`Stmt.Includes`): the pass succeeds if all of them are attached, and fails
as one of them does.
-/

namespace PageScript

/-! ## Lists of results -/

section Results

variable {α β ε : Type} {f g : α → Except ε β}

theorem exists_of_forall₂ {R : α → β → Prop} {xs : List α} {ys : List β}
    (h : List.Forall₂ R xs ys) : ∀ x ∈ xs, ∃ y ∈ ys, R x y := by
  induction h with
  | nil => exact nofun
  | cons hxy _ ih =>
    rintro x (_ | ⟨_, hx⟩)
    · exact ⟨_, List.mem_cons_self, hxy⟩
    · obtain ⟨y, hy, h⟩ := ih x hx
      exact ⟨y, List.mem_cons_of_mem _ hy, h⟩

theorem mapM_eq_ok_iff : ∀ {xs : List α} {ys : List β},
    xs.mapM f = .ok ys ↔ List.Forall₂ (fun x y => f x = .ok y) xs ys
  | [], ys => by
    rw [List.forall₂_nil_left_iff]
    exact ⟨fun h => by cases h; rfl, fun h => h ▸ rfl⟩
  | x :: xs, ys => by
    rw [List.forall₂_cons_left_iff, List.mapM_cons]
    cases hx : f x with
    | error e => exact ⟨nofun, fun ⟨_, _, h, _⟩ => nomatch h⟩
    | ok y =>
      cases hxs : xs.mapM f with
      | error e =>
        refine ⟨nofun, fun ⟨y', ys', _, h, _⟩ => ?_⟩
        cases hxs.symm.trans (mapM_eq_ok_iff.mpr h)
      | ok ys' =>
        refine ⟨fun h => ⟨y, ys', rfl, mapM_eq_ok_iff.mp hxs, by cases h; rfl⟩, ?_⟩
        rintro ⟨y', ys'', h, hrest, rfl⟩
        cases h
        cases hxs.symm.trans (mapM_eq_ok_iff.mpr hrest)
        rfl

theorem exists_of_mapM_eq_error : ∀ {xs : List α} {e : ε},
    xs.mapM f = .error e → ∃ x ∈ xs, f x = .error e
  | [], e, h => nomatch h
  | x :: xs, e, h => by
    rw [List.mapM_cons] at h
    cases hx : f x with
    | error e' =>
      rw [hx] at h
      cases h
      exact ⟨x, List.mem_cons_self, hx⟩
    | ok y =>
      rw [hx] at h
      cases hxs : xs.mapM f with
      | error e' =>
        rw [hxs] at h
        cases h
        obtain ⟨x', hx', he⟩ := exists_of_mapM_eq_error hxs
        exact ⟨x', List.mem_cons_of_mem _ hx', he⟩
      | ok ys =>
        rw [hxs] at h
        cases h

theorem mapM_congr : ∀ {xs : List α}, (∀ x ∈ xs, f x = g x) → xs.mapM f = xs.mapM g
  | [], _ => rfl
  | x :: xs, h => by
    rw [List.mapM_cons, List.mapM_cons, h x List.mem_cons_self,
      mapM_congr fun x' hx' => h x' (List.mem_cons_of_mem _ hx')]

end Results

namespace Stmt

/-! ## The directives of a statement -/

/-- A statement is an include directive without its file, or one is inside it at any depth. -/
inductive Includes (directive : Include) : Stmt → Prop
  | here {span : Span} : Includes directive (.includeFile span directive none)
  | inside {stmt inner : Stmt} {body : List Stmt} (hbody : body ∈ stmt.bodies)
      (hinner : inner ∈ body) (h : Includes directive inner) : Includes directive stmt

/-- One of some statements is or holds an include directive without its file. -/
def IncludesIn (directive : Include) (body : List Stmt) : Prop :=
  ∃ stmt ∈ body, stmt.Includes directive

/-! ## One pass -/

variable {attach attach' : Include → Except PageFault (List Stmt)}

theorem expandBody_eq_mapM (body : List Stmt) :
    expandBody attach body = body.mapM (·.expand attach) := by
  induction body with
  | nil => rfl
  | cons stmt rest ih =>
    rw [List.mapM_cons, ← ih]
    rfl

theorem expandCases_eq_mapM : ∀ cases : List Case,
    expandCases attach cases =
      replaceCases cases <$> (cases.map Case.body).mapM (expandBody attach)
  | [] => rfl
  | .mk conditions body :: rest => by
    simp only [expandCases, expandCases_eq_mapM rest, List.map_cons, List.mapM_cons, Case.body,
      map_bind, map_pure, bind_map_left, replaceCases, List.zipWith_cons_cons, Case.conditions]

/-- Every statement but a directive without its file has its bodies expanded, in order. -/
theorem expand_eq_mapM {stmt : Stmt} (h : stmt.isUnresolved = false) :
    stmt.expand attach = stmt.withBodies <$> stmt.bodies.mapM (expandBody attach) := by
  cases stmt with
  | includeFile span directive attached =>
    cases attached with
    | none => nomatch h
    | some body => rfl
  | select span subject cases =>
    simp only [expand, expandCases_eq_mapM, bodies, withBodies, map_eq_pure_bind, bind_assoc,
      pure_bind]
  | procedure span decl | property span form decl isDefault =>
    cases decl
    simp only [expand, bodies, Procedure.body, List.mapM_cons, List.mapM_nil, map_bind, map_pure,
      pure_bind, withBodies]
    rfl
  | assign | call | const | dim | redim | exit | onError | optionExplicit => rfl
  | _ =>
    simp only [expand, bodies, List.mapM_cons, List.mapM_nil, map_bind, map_pure, pure_bind,
      withBodies, bind_assoc]

theorem expandBody_eq_ok_iff {body body' : List Stmt} :
    expandBody attach body = .ok body' ↔
      List.Forall₂ (fun stmt stmt' => stmt.expand attach = .ok stmt') body body' := by
  rw [expandBody_eq_mapM, mapM_eq_ok_iff]

theorem expand_eq_ok_iff {stmt stmt' : Stmt} (h : stmt.isUnresolved = false) :
    stmt.expand attach = .ok stmt' ↔
      ∃ bs, List.Forall₂ (fun body body' => expandBody attach body = .ok body') stmt.bodies bs ∧
        stmt' = stmt.withBodies bs := by
  rw [expand_eq_mapM h]
  cases hbs : stmt.bodies.mapM (expandBody attach) with
  | ok bs =>
    refine ⟨fun h => ⟨bs, mapM_eq_ok_iff.mp hbs, by cases h; rfl⟩, ?_⟩
    rintro ⟨bs', h', rfl⟩
    cases hbs.symm.trans (mapM_eq_ok_iff.mpr h')
    rfl
  | error f =>
    refine ⟨nofun, ?_⟩
    rintro ⟨bs', h', -⟩
    cases hbs.symm.trans (mapM_eq_ok_iff.mpr h')

/-- Two passes agree if they attach the same to each directive that they meet. -/
theorem expand_congr (stmt : Stmt)
    (h : ∀ directive, stmt.Includes directive → attach directive = attach' directive) :
    stmt.expand attach = stmt.expand attach' := by
  induction stmt using induct with
  | step stmt ih _ =>
    cases hres : stmt.isUnresolved with
    | false =>
      rw [expand_eq_mapM hres, expand_eq_mapM hres]
      refine congrArg _ (mapM_congr fun body hbody => ?_)
      rw [expandBody_eq_mapM, expandBody_eq_mapM]
      exact mapM_congr fun inner hinner =>
        ih body hbody inner hinner fun directive hd => h directive (.inside hbody hinner hd)
    | true =>
      match stmt, hres with
      | .includeFile span directive none, _ =>
        simp only [expand, h directive .here]

theorem expandBody_congr {body : List Stmt}
    (h : ∀ directive, IncludesIn directive body → attach directive = attach' directive) :
    expandBody attach body = expandBody attach' body := by
  rw [expandBody_eq_mapM, expandBody_eq_mapM]
  exact mapM_congr fun stmt hstmt => expand_congr stmt fun d hd => h d ⟨stmt, hstmt, hd⟩

/-- A pass that succeeds has attached a file to every directive that it met. -/
theorem attached_of_expand {stmt stmt' : Stmt} {directive : Include}
    (hd : stmt.Includes directive) (h : stmt.expand attach = .ok stmt') :
    ∃ body, attach directive = .ok body := by
  induction hd generalizing stmt' with
  | @here span =>
    cases ha : attach directive with
    | ok body => exact ⟨body, rfl⟩
    | error f => simp only [expand, ha] at h; nomatch h
  | @inside stmt inner body hbody hinner hd ih =>
    have hres : stmt.isUnresolved = false := by
      cases stmt with
      | includeFile => nomatch hbody
      | _ => rfl
    obtain ⟨bs, hbs, -⟩ := (expand_eq_ok_iff hres).mp h
    obtain ⟨body', -, hbody'⟩ := exists_of_forall₂ hbs _ hbody
    obtain ⟨inner', -, hinner'⟩ := exists_of_forall₂ (expandBody_eq_ok_iff.mp hbody') _ hinner
    exact ih hinner'

theorem attached_of_expandBody {body body' : List Stmt} {directive : Include}
    (hd : IncludesIn directive body) (h : expandBody attach body = .ok body') :
    ∃ file, attach directive = .ok file := by
  obtain ⟨stmt, hstmt, hd⟩ := hd
  obtain ⟨stmt', -, hstmt'⟩ := exists_of_forall₂ (expandBody_eq_ok_iff.mp h) _ hstmt
  exact attached_of_expand hd hstmt'

/-- A pass fails as one of the directives that it met. -/
theorem exists_of_expand_eq_error {stmt : Stmt} {f : PageFault}
    (h : stmt.expand attach = .error f) :
    ∃ directive, stmt.Includes directive ∧ attach directive = .error f := by
  induction stmt using induct with
  | step stmt ih _ =>
    cases hres : stmt.isUnresolved with
    | false =>
      rw [expand_eq_mapM hres] at h
      cases hbs : stmt.bodies.mapM (expandBody attach) with
      | ok bs => rw [hbs] at h; nomatch h
      | error g =>
        rw [hbs] at h
        cases h
        obtain ⟨body, hbody, h⟩ := exists_of_mapM_eq_error hbs
        rw [expandBody_eq_mapM] at h
        obtain ⟨inner, hinner, h⟩ := exists_of_mapM_eq_error h
        obtain ⟨directive, hd, ha⟩ := ih body hbody inner hinner h
        exact ⟨directive, .inside hbody hinner hd, ha⟩
    | true =>
      match stmt, hres with
      | .includeFile span directive none, _ =>
        refine ⟨directive, .here, ?_⟩
        cases ha : attach directive with
        | ok body => simp only [expand, ha] at h; nomatch h
        | error g => simp only [expand, ha] at h; cases h; rfl

theorem exists_of_expandBody_eq_error {body : List Stmt} {f : PageFault}
    (h : expandBody attach body = .error f) :
    ∃ directive, IncludesIn directive body ∧ attach directive = .error f := by
  rw [expandBody_eq_mapM] at h
  obtain ⟨stmt, hstmt, h⟩ := exists_of_mapM_eq_error h
  obtain ⟨directive, hd, ha⟩ := exists_of_expand_eq_error h
  exact ⟨directive, ⟨stmt, hstmt, hd⟩, ha⟩

end Stmt

end PageScript
