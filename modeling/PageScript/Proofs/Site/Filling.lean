import PageScript.Proofs.Machine.Finishing
import PageScript.Proofs.Site.Cycles

/-!
# Proofs/Site/Filling — an expanded page is its recursive definition

`Stmt.erase` takes the attached files out of a statement again.  `Includer.Fills` defines what an
expanded statement is: each directive holds what is there to be loaded where it leads, expanded in
turn as part of that file.  Expansion gives the one tree that is filled in this way and is the given
one without the attached files; nothing in it is left for a second pass, or for the run, to miss.
-/

namespace PageScript

/-! ## Taking the attached files out -/

mutual

/-- The statement without the files attached to the directives in it. -/
def Stmt.erase : Stmt → Stmt
  | .includeFile span directive _ => .includeFile span directive none
  | .block span body => .block span (eraseBody body)
  | .branch span cond thenBody elseBody => .branch span cond (eraseBody thenBody) (eraseBody elseBody)
  | .loop span cond body untilTrue testsAfter =>
    .loop span cond (eraseBody body) untilTrue testsAfter
  | .count span var first last step body => .count span var first last step (eraseBody body)
  | .forEach span var collection body => .forEach span var collection (eraseBody body)
  | .withObject span object body => .withObject span object (eraseBody body)
  | .select span subject cases => .select span subject (eraseCases cases)
  | .procedure span (.mk name kind params body access) =>
    .procedure span (.mk name kind params (eraseBody body) access)
  | .property span form (.mk name kind params body access) isDefault =>
    .property span form (.mk name kind params (eraseBody body) access) isDefault
  | .classDecl span name members => .classDecl span name (eraseBody members)
  | .assign span target value => .assign span target value
  | .call span e => .call span e
  | .const span name value => .const span name value
  | .dim span name bounds access => .dim span name bounds access
  | .redim span name bounds preserve => .redim span name bounds preserve
  | .exit span kind => .exit span kind
  | .onError span kind => .onError span kind
  | .optionExplicit span on => .optionExplicit span on

/-- The statements without the files attached to the directives in them. -/
def Stmt.eraseBody : List Stmt → List Stmt
  | [] => []
  | stmt :: rest => stmt.erase :: eraseBody rest

/-- The cases without the files attached to the directives in them. -/
def Stmt.eraseCases : List Case → List Case
  | [] => []
  | .mk conditions body :: rest => .mk conditions (eraseBody body) :: eraseCases rest

end

namespace Stmt

theorem eraseBody_eq_map (body : List Stmt) : eraseBody body = body.map erase := by
  induction body with
  | nil => rfl
  | cons stmt rest ih => exact congrArg (stmt.erase :: ·) ih

theorem eraseCases_eq_replace (cases : List Case) :
    eraseCases cases = replaceCases cases ((cases.map Case.body).map eraseBody) := by
  induction cases with
  | nil => rfl
  | cons case rest ih =>
    cases case with
    | mk conditions body => exact congrArg (Case.mk conditions (eraseBody body) :: ·) ih

theorem erase_of_attached? {stmt : Stmt} (h : stmt.attached? = none) :
    stmt.erase = stmt.withBodies (stmt.bodies.map eraseBody) := by
  cases stmt with
  | includeFile span directive attached =>
    obtain rfl : attached = none := h
    rfl
  | select span subject cases => exact congrArg (select span subject) (eraseCases_eq_replace cases)
  | procedure span decl | property span form decl isDefault => cases decl; rfl
  | _ => rfl

/-- Whether no file is attached to a statement, as when it has just been read. -/
def IsBare (stmt : Stmt) : Prop := stmt.attached? = none

/-- Whether a statement is no directive without its file. -/
def IsResolved (stmt : Stmt) : Prop := stmt.isUnresolved = false

/-- Where nothing is missing, a pass changes nothing. -/
theorem expand_of_isResolved {attach : Include → Except PageFault (List Stmt)} {stmt : Stmt}
    (h : stmt.Every IsResolved) : stmt.expand attach = .ok stmt := by
  induction h with
  | @intro stmt here _ _ inside _ =>
    refine (expand_eq_ok_iff here).mpr ⟨stmt.bodies, ?_, stmt.withBodies_bodies.symm⟩
    refine List.forall₂_same.mpr fun body hbody => ?_
    exact expandBody_eq_ok_iff.mpr (List.forall₂_same.mpr (inside body hbody))

end Stmt

namespace Includer

open Stmt (IsBare IsResolved)

/-! ## Filled statements -/

/-- A statement that stands in the file `source` is expanded: the directives in it hold the
statements of the files that they lead to, expanded as well. -/
inductive Fills (inc : Includer) : (source : Path) → Stmt → Prop
  | plain {source : Path} {stmt : Stmt} (bare : stmt.IsBare) (resolved : stmt.IsResolved)
      (inside : ∀ body ∈ stmt.bodies, ∀ inner ∈ body, Fills inc source inner) :
      Fills inc source stmt
  | directive {source : Path} {span : Span} {directive : Include} {file : List Stmt}
      (loads : inc.load (inc.leads directive source) = .ok (Stmt.eraseBody file))
      (inside : ∀ inner ∈ file, Fills inc (inc.leads directive source) inner) :
      Fills inc source (.includeFile span directive (some file))

/-- Statements that stand in the file `source` are expanded. -/
def FillsIn (inc : Includer) (source : Path) (body : List Stmt) : Prop :=
  ∀ stmt ∈ body, inc.Fills source stmt

/-- The files that load have just been read: nothing is attached in them. -/
def LoadsBare (inc : Includer) : Prop :=
  ∀ file body, inc.load file = .ok body → Stmt.EveryIn IsBare body

variable {inc : Includer} {source : Path}

theorem Fills.isResolved {stmt : Stmt} (h : inc.Fills source stmt) : stmt.Every IsResolved := by
  induction h with
  | plain bare resolved _ inside =>
    exact .intro resolved inside fun body h => nomatch bare.symm.trans h
  | directive _ _ inside =>
    refine .intro rfl nofun fun body h => ?_
    cases h
    exact inside

theorem eq_of_map_eq {α β : Type} {f : α → β} : ∀ {xs ys : List α}, xs.map f = ys.map f →
    (∀ x ∈ xs, ∀ y ∈ ys, f x = f y → x = y) → xs = ys
  | [], [], _, _ => rfl
  | x :: xs, y :: ys, h, inj => by
    obtain ⟨hxy, h⟩ := List.cons.inj h
    rw [inj x List.mem_cons_self y List.mem_cons_self hxy, eq_of_map_eq h fun x' hx y' hy =>
      inj x' (List.mem_cons_of_mem _ hx) y' (List.mem_cons_of_mem _ hy)]

theorem isUnresolved_erase {stmt : Stmt} (bare : stmt.IsBare) (resolved : stmt.IsResolved) :
    stmt.erase.isUnresolved = false := by
  rw [Stmt.erase_of_attached? bare, Stmt.isUnresolved_withBodies]
  exact resolved

/-- An expanded statement is determined by what it was before. -/
theorem Fills.eq_of_erase {stmt other : Stmt} (h : inc.Fills source stmt)
    (hother : inc.Fills source other) (same : stmt.erase = other.erase) : stmt = other := by
  induction h generalizing other with
  | @plain source stmt bare resolved hinside inside =>
    cases hother with
    | directive =>
      have resolved := isUnresolved_erase bare resolved
      rw [same] at resolved
      nomatch resolved
    | plain bare' _ hinside' =>
      rw [Stmt.erase_of_attached? bare, Stmt.erase_of_attached? bare'] at same
      have length : (stmt.bodies.map Stmt.eraseBody).length = stmt.bodies.length := List.length_map _
      have length' : (other.bodies.map Stmt.eraseBody).length = other.bodies.length :=
        List.length_map _
      refine Stmt.eq_of_withBodies_eq length length' same ?_
      have erased := congrArg Stmt.bodies same
      rw [Stmt.bodies_withBodies length, Stmt.bodies_withBodies length'] at erased
      refine eq_of_map_eq erased fun body hbody body' hbody' same => ?_
      rw [Stmt.eraseBody_eq_map, Stmt.eraseBody_eq_map] at same
      exact eq_of_map_eq same fun inner hinner inner' hinner' =>
        inside body hbody inner hinner (hinside' body' hbody' inner' hinner')
  | @directive source span d file loads hinside inside =>
    cases hother with
    | plain bare' resolved' =>
      have resolved := isUnresolved_erase bare' resolved'
      rw [← same] at resolved
      nomatch resolved
    | @directive _ span' d' file' loads' hinside' =>
      obtain ⟨rfl, rfl, -⟩ : span = span' ∧ d = d' ∧ True := by cases same; exact ⟨rfl, rfl, trivial⟩
      have erased : Stmt.eraseBody file = Stmt.eraseBody file' :=
        Except.ok.inj (loads.symm.trans loads')
      rw [Stmt.eraseBody_eq_map, Stmt.eraseBody_eq_map] at erased
      rw [eq_of_map_eq erased fun inner hinner inner' hinner' =>
        inside inner hinner (hinside' inner' hinner')]

theorem FillsIn.eq_of_eraseBody {body other : List Stmt} (h : inc.FillsIn source body)
    (hother : inc.FillsIn source other) (same : Stmt.eraseBody body = Stmt.eraseBody other) :
    body = other := by
  rw [Stmt.eraseBody_eq_map, Stmt.eraseBody_eq_map] at same
  exact eq_of_map_eq same fun stmt hstmt stmt' hstmt' =>
    (h stmt hstmt).eq_of_erase (hother stmt' hstmt')

/-! ## Expansion fills -/

theorem map_eq_of_forall₂ {α β : Type} {g : β → α} {p : β → Prop} {xs : List α} {ys : List β}
    (h : List.Forall₂ (fun x y => g y = x ∧ p y) xs ys) : ys.map g = xs ∧ ∀ y ∈ ys, p y := by
  induction h with
  | nil => exact ⟨rfl, nofun⟩
  | cons hxy _ ih => exact ⟨by rw [List.map_cons, hxy.1, ih.1], List.forall_mem_cons.mpr ⟨hxy.2, ih.2⟩⟩

variable {attach : Include → Except PageFault (List Stmt)}

/-- Expanded statements, where one by one they are filled and what they were before. -/
theorem fillsIn_of_expandBody {body expanded : List Stmt}
    (one : ∀ stmt ∈ body, ∀ stmt', stmt.expand attach = .ok stmt' →
      stmt'.erase = stmt ∧ inc.Fills source stmt')
    (h : Stmt.expandBody attach body = .ok expanded) :
    Stmt.eraseBody expanded = body ∧ inc.FillsIn source expanded := by
  rw [Stmt.eraseBody_eq_map]
  exact map_eq_of_forall₂ (((List.forall₂_and_left _ _).mpr
    ⟨one, Stmt.expandBody_eq_ok_iff.mp h⟩).imp fun _ _ h => h.1 _ h.2)

/-- A pass fills what has just been read, if it attaches filled files. -/
theorem fills_of_expand
    (hattach : ∀ directive file, attach directive = .ok file →
      inc.load (inc.leads directive source) = .ok (Stmt.eraseBody file) ∧
        inc.FillsIn (inc.leads directive source) file)
    {stmt expanded : Stmt} (bare : stmt.Every IsBare) (h : stmt.expand attach = .ok expanded) :
    expanded.erase = stmt ∧ inc.Fills source expanded := by
  induction bare generalizing expanded with
  | @intro stmt here _ _ inside _ =>
    cases hres : stmt.isUnresolved with
    | true =>
      obtain ⟨span, directive, rfl⟩ := Stmt.eq_of_isUnresolved hres
      cases ha : attach directive with
      | error f =>
        simp only [Stmt.expand, ha] at h
        cases h
      | ok file =>
        simp only [Stmt.expand, ha] at h
        cases h
        exact ⟨rfl, .directive (hattach directive file ha).1 (hattach directive file ha).2⟩
    | false =>
      obtain ⟨bs, hbs, rfl⟩ := (Stmt.expand_eq_ok_iff hres).mp h
      have length : bs.length = stmt.bodies.length := hbs.length_eq.symm
      have bare : (stmt.withBodies bs).IsBare := (stmt.attached?_withBodies bs).trans here
      have bodies : (stmt.withBodies bs).bodies = bs := Stmt.bodies_withBodies length
      have each : List.Forall₂
          (fun body body' => Stmt.eraseBody body' = body ∧ inc.FillsIn source body')
          stmt.bodies bs :=
        ((List.forall₂_and_left _ _).mpr ⟨inside, hbs⟩).imp fun body body' h =>
          fillsIn_of_expandBody (fun inner hinner _ => h.1 inner hinner) h.2
      obtain ⟨erased, filled⟩ := map_eq_of_forall₂ each
      refine ⟨?_, .plain bare ((stmt.isUnresolved_withBodies bs).trans hres) ?_⟩
      · rw [Stmt.erase_of_attached? bare, bodies, erased,
          Stmt.withBodies_withBodies length rfl, Stmt.withBodies_bodies]
      · rw [bodies]
        exact filled

/-- The files that a page includes are filled in, each with the directives in it followed from its
own place. -/
theorem fillsIn_of_expandWithin (loadsBare : inc.LoadsBare) : ∀ {bound : Nat} {source : Path}
    {above : List Path} {body expanded : List Stmt}, Stmt.EveryIn IsBare body →
      inc.expandWithin bound source above body = .ok expanded →
        Stmt.eraseBody expanded = body ∧ inc.FillsIn source expanded
  | 0, _, _, _, _, _, h => nomatch h
  | bound + 1, source, above, body, expanded, bare, h => by
    rw [expandWithin_succ] at h
    refine fillsIn_of_expandBody (fun stmt hstmt stmt' => fills_of_expand ?_ (bare stmt hstmt)) h
    intro directive file ha
    simp only [attachWithin] at ha
    split at ha
    · cases ha
    · cases loads : inc.load (inc.leads directive source) with
      | error f =>
        rw [loads] at ha
        cases ha
      | ok included =>
        rw [loads] at ha
        obtain ⟨erased, filled⟩ := fillsIn_of_expandWithin loadsBare (loadsBare _ _ loads) ha
        exact ⟨by rw [erased], filled⟩

/-! ## Expanded pages -/

/-- Where nothing is missing, expansion changes nothing. -/
theorem expand_of_isResolved {page : Path} {body : List Stmt} (h : Stmt.EveryIn IsResolved body) :
    inc.expand page body = .ok body :=
  Stmt.expandBody_eq_ok_iff.mpr (List.forall₂_same.mpr fun stmt hstmt =>
    Stmt.expand_of_isResolved (h stmt hstmt))

end Includer

/-- Where nothing is missing, neither in the statements nor in the procedures at hand, no run stops
at a directive without its file. -/
theorem Evaluator.ne_unresolved_of_runBody {body : List Stmt} {s t : State} {c : FrameId}
    {bound : Nat} {f : Fault} (hbody : Stmt.EveryIn Stmt.IsResolved body)
    (hstored : ∀ decl, s.Stores decl → Stmt.EveryIn Stmt.IsResolved decl.body)
    (h : (ofBound bound).runBody c body s = .failed f t) (d : Include) :
    f.cause ≠ d.unresolved :=
  (holds_runBody (S := s.sphere Stmt.IsResolved) hbody s (State.within_sphere hstored)).fails
    bound f t h (fun _ => id) d

/-- **An expanded page is its recursive definition**: each directive in it holds the file that it
leads to, expanded from there, the rest is the page as it was, and there is only one such tree.
Expanding it again changes nothing, and a loaded page never runs into a directive without its
file. -/
theorem Includer.expand_fills (inc : Includer) (loadsBare : inc.LoadsBare) (path : Path) :
    (∀ body expanded, Stmt.EveryIn Stmt.IsBare body → inc.expand path body = .ok expanded →
      (Stmt.eraseBody expanded = body ∧ inc.FillsIn path.normalize expanded) ∧
      (∀ other, Stmt.eraseBody other = body → inc.FillsIn path.normalize other →
        other = expanded) ∧
      ∀ (again : Includer) (path' : Path), again.expand path' expanded = .ok expanded) ∧
    ∀ page, inc.loadPage path = .ok page → ∀ (bound : Nat) (c : FrameId) (s : State),
      (∀ decl, s.Stores decl → Stmt.EveryIn Stmt.IsResolved decl.body) →
        ∀ f t, (Evaluator.ofBound bound).runBody c page s = .failed f t →
          ∀ d : Include, f.cause ≠ d.unresolved := by
  have fills (body expanded) (bare : Stmt.EveryIn Stmt.IsBare body)
      (h : inc.expand path body = .ok expanded) :
      Stmt.eraseBody expanded = body ∧ inc.FillsIn path.normalize expanded :=
    fillsIn_of_expandWithin loadsBare bare h
  refine ⟨fun body expanded bare h => ?_, fun page h bound c s hstored f t fails d => ?_⟩
  · obtain ⟨erased, filled⟩ := fills body expanded bare h
    refine ⟨⟨erased, filled⟩, fun other hother hfilled => ?_, fun again path' => ?_⟩
    · exact hfilled.eq_of_eraseBody filled (hother.trans erased.symm)
    · exact expand_of_isResolved fun stmt hstmt => (filled stmt hstmt).isResolved
  · cases loads : inc.load path with
    | error g => simp only [loadPage, loads] at h; nomatch h
    | ok body =>
      simp only [loadPage, loads] at h
      obtain ⟨-, filled⟩ := fills body page (loadsBare path body loads) h
      exact Evaluator.ne_unresolved_of_runBody (fun stmt hstmt => (filled stmt hstmt).isResolved)
        hstored fails d

/-- A page that includes a file as part of a procedure. -/
theorem Includer.expand_fills_procedure :
    let inc : Includer := ⟨fun directive _ => ⟨directive.path⟩,
      fun _ => .ok [.exit default .sub], 1⟩
    let page (attached : Option (List Stmt)) : List Stmt :=
      [.procedure default (.mk (Name.ofString "leave") .sub []
        [.includeFile default ⟨"a", false⟩ attached] .isPublic)]
    let expanded := page (some [.exit default .sub])
    inc.LoadsBare ∧ Stmt.EveryIn Stmt.IsBare (page none) ∧
      inc.expand ⟨"p"⟩ (page none) = .ok expanded ∧
        inc.FillsIn (⟨"p"⟩ : Path).normalize expanded ∧
          ∀ other, Stmt.eraseBody other = page none →
            inc.FillsIn (⟨"p"⟩ : Path).normalize other → other = expanded := by
  intro inc page expanded
  have loadsBare : inc.LoadsBare := by
    rintro file body h stmt hstmt
    cases h
    cases List.mem_singleton.mp hstmt
    exact .leaf rfl rfl rfl
  have bare : Stmt.EveryIn Stmt.IsBare (page none) := by
    refine Stmt.everyIn_cons.mpr ⟨.intro rfl (fun body hbody => ?_) nofun, Stmt.everyIn_nil⟩
    rw [List.mem_singleton.mp hbody]
    exact Stmt.everyIn_cons.mpr ⟨.leaf rfl rfl rfl, Stmt.everyIn_nil⟩
  have source : (⟨"p"⟩ : Path).normalize = ⟨"p"⟩ := by decide
  have target : (⟨"a"⟩ : Path).normalize = ⟨"a"⟩ := by decide
  have succeeds : inc.expand ⟨"p"⟩ (page none) = .ok expanded := by
    simp [expand, expandWithin_succ, attachWithin, leads, inc, page, expanded, Stmt.expandBody,
      Stmt.expand, source, target]
    rfl
  obtain ⟨⟨-, filled⟩, unique, -⟩ :=
    (expand_fills inc loadsBare ⟨"p"⟩).1 (page none) expanded bare succeeds
  exact ⟨loadsBare, bare, succeeds, filled, unique⟩

end PageScript
