import PageScript.Proofs.Machine.Declarators
import PageScript.Proofs.Site.Filling
import PageScript.Proofs.Syntax.Tree.Source

/-!
# Proofs/Site/Declaring — the declarations of a block with its files

`Stmt.declaredIn` lists the declarations in a block with the places they stand at: the statements that
share a frame are searched, at any depth and in the attached files, but neither procedures nor classes
are.  A block of a source that parses declares this list and nothing else, whichever of its directives
hold their files (`Stmt.declareBody_eq`), so it succeeds exactly if the frame takes the whole list, and
otherwise fails at the first of them that the frame refuses (`Stmt.declareBody_declares`).
-/

namespace PageScript

open Run

variable {c : FrameId} {s t : State}

/-! ## The first offence -/

namespace Declarator

/-- Declares names at the places they stand at, in order. -/
def declareEach (c : FrameId) : List (Span × Declarator) → Run Unit
  | [] => pure ()
  | (place, d) :: rest => do
    Run.within place (d.declare c)
    declareEach c rest

/-- Whether a procedure is declared. -/
def isProcedure : Declarator → Bool
  | procedure _ => true
  | «variable» _ | constant _ _ => false

/-- Why a frame refuses a declaration behind those of some names, if it does: no procedure is declared
inside another, and nothing in a frame that is closed or has the name already. -/
def offence? (frame : Frame) (taken : List Name) (d : Declarator) : Option Fault.Cause :=
  if d.isProcedure && frame.procedure.isSome then
    some (.unsupported ("declaring " ++ d.name.text ++ " inside a procedure"))
  else if frame.frozen then some (.readonlyWrite d.name.text)
  else if (frame.bindings.get? d.name.text).isSome ∨ d.name ∈ taken then
    some (.redeclared d.name.text)
  else none

variable {d : Declarator} {ds : List (Span × Declarator)}

/-- A name that is bound counts like one that was declared before. -/
theorem offence?_bind {frame : Frame} {taken : List Name} {name : Name} {cell : CellId} :
    d.offence? (frame.bind name cell) taken = d.offence? frame (name :: taken) := by
  have found : ((frame.bind name cell).bindings.get? d.name.text).isSome ∨ d.name ∈ taken ↔
      (frame.bindings.get? d.name.text).isSome ∨ d.name ∈ name :: taken := by
    by_cases same : name = d.name
    · subst same
      simp [Frame.bind]
    · have apart : name.text ≠ d.name.text := fun h => same (Name.ext h)
      simp [Frame.bind, Dictionary.get?_insert_of_ne _ apart, Ne.symm same]
  simp only [offence?, found]
  rfl

theorem offence?_eq_none_iff_admits :
    d.offence? (s.frames.get c) [] = none ↔ s.Admits c [d] := by
  rw [admits_singleton_iff]
  cases d <;> simp [offence?, isProcedure, ite_eq_iff, and_comm]

theorem declare_of_declarationFault? {how : State.Declaration} {name : Name} {v : Value}
    {cause : Fault.Cause} (h : s.declarationFault? c how name = some cause) :
    (Run.declare c how name v >>= fun _ => pure ()) s = .failed (.of cause) s := by
  refine bind_of_failed ?_
  simp only [Run.declare, visiting, about, through, atomic, h]

/-- A declaration that the frame refuses fails for the reason that the frame has. -/
theorem declare_of_offence? {cause : Fault.Cause} (h : d.offence? (s.frames.get c) [] = some cause) :
    ∃ t, d.declare c s = .failed (.of cause) t := by
  -- But for a procedure inside another the reason is the one for which no name is bound.
  have same {how : State.Declaration} (first : how ≠ .replacing)
      (idle : (d.isProcedure && (s.frames.get c).procedure.isSome) = false) :
      s.declarationFault? c how d.name = some cause := by
    rw [← h]
    simp [State.declarationFault?, offence?, first, idle]
  cases d with
  | «variable» => exact ⟨s, declare_of_declarationFault? (same (by decide) rfl)⟩
  | constant => exact ⟨s, declare_of_declarationFault? (same (by decide) rfl)⟩
  | procedure decl =>
    cases running : (s.frames.get c).procedure with
    | none =>
      have idle : (isProcedure (.procedure decl) && (s.frames.get c).procedure.isSome) = false := by
        rw [running]
        rfl
      exact ⟨_, (Procedure.declare_of_idle running).trans
        (declare_of_declarationFault? (same (by decide) idle))⟩
    | some other =>
      simp only [offence?, isProcedure, running, Option.isSome_some, Bool.and_self, if_true,
        Option.some.injEq] at h
      subst h
      exact ⟨s, Procedure.declare_of_running running⟩

theorem agrees_declareEach : ∀ (ds : List (Span × Declarator)) (s : State),
    (declareEach c ds s).Agrees (declareAll c (ds.map Prod.snd) s)
  | [], _ => .refl _
  | (place, _) :: ds, s =>
    (agrees_bind (agrees_within place)).trans
      (agrees_bind_right _ (fun _ => agrees_declareEach ds) s)

/-- Declarations succeed, at whatever places, exactly if the frame takes them all. -/
theorem declareEach_eq_done_iff (live : c.index < s.frames.size) :
    declareEach c ds s = .done () t ↔ s.Admits c (ds.map Prod.snd) ∧
      t = (ds.map Prod.snd).foldl (fun s d => d.addTo c s) s :=
  (agrees_declareEach ds s).done_iff.trans (declareAll_eq_done_iff live)

/-- Declarations fail at the first that the frame refuses: it takes those before, and refuses this one
behind them, which stands at a place. -/
structure FirstOffence (s : State) (c : FrameId) (ds before : List (Span × Declarator)) (place : Span)
    (d : Declarator) (cause : Fault.Cause) : Prop where
  inOrder : before ++ [(place, d)] <+: ds
  taken : s.Admits c (before.map Prod.snd)
  refused : d.offence? (s.frames.get c) (before.map (·.2.name)) = some cause

/-- Declarations that the frame does not all take fail at the first that it refuses, with its place. -/
theorem exists_firstOffence : ∀ {ds : List (Span × Declarator)} {s : State}, c.index < s.frames.size →
    ¬ s.Admits c (ds.map Prod.snd) → ∃ before place d cause t, FirstOffence s c ds before place d cause ∧
      declareEach c ds s = .failed ⟨cause, some place⟩ t
  | [], _, _, refused => absurd ⟨nofun, nofun, nofun, List.nodup_nil⟩ refused
  | (place, d) :: ds, s, live, refused => by
    cases offence : d.offence? (s.frames.get c) [] with
    | some cause =>
      obtain ⟨t, failed⟩ := declare_of_offence? offence
      have nothing : s.Admits c [] := ⟨nofun, nofun, nofun, List.nodup_nil⟩
      refine ⟨[], place, d, cause, t, ⟨⟨ds, rfl⟩, nothing, offence⟩, bind_of_failed ?_⟩
      rw [within_eq_map, failed]
      rfl
    | none =>
      have first : s.Admits c [d] := offence?_eq_none_iff_admits.mp offence
      have declared : within place (d.declare c) s = .done () (d.addTo c s) := by
        rw [within_eq_map, declare_eq_done_iff.mpr ⟨first, rfl⟩]
        rfl
      have later : ¬ (d.addTo c s).Admits c (ds.map Prod.snd) := fun h =>
        refused ((admits_cons_iff live).mpr ⟨first, h⟩)
      obtain ⟨before, place', d', cause, t, ⟨inOrder, taken, refused⟩, failed⟩ :=
        exists_firstOffence ((size_addTo d).symm ▸ live) later
      rw [get_addTo_self live, offence?_bind] at refused
      exact ⟨(place, d) :: before, place', d', cause, t,
        ⟨(List.cons_prefix_cons).mpr ⟨rfl, inOrder⟩, (admits_cons_iff live).mpr ⟨first, taken⟩, refused⟩,
        (bind_of_done declared).trans failed⟩

theorem span_of_declareEach_failed {f : Fault} : ∀ {ds : List (Span × Declarator)} {s t : State},
    declareEach c ds s = .failed f t → f.span.isSome
  | [], _, _, h => nomatch h
  | _ :: _, _, _, h => span_of_bind_failed h (fun _ => span_of_within_failed)
    fun _ _ _ => span_of_declareEach_failed

theorem declareEach_append : ∀ (ds ds' : List (Span × Declarator)) (s : State),
    declareEach c (ds ++ ds') s = (declareEach c ds >>= fun _ => declareEach c ds') s
  | [], _, _ => rfl
  | (place, d) :: ds, ds', s => by
    have rest := bind_congr (within place (d.declare c)) (fun _ t => declareEach_append ds ds' t) s
    exact rest.trans (bind_assoc _ _ _ s).symm

end Declarator

namespace Run

variable {α β : Type} {m m' : Run α}

theorem bind_congr_left {next : α → Run β} (h : m s = m' s) : (m >>= next) s = (m' >>= next) s := by
  simp only [Bind.bind, Run.bind, through, h]

/-- Faults that have a place keep it. -/
theorem within_of_placed {place : Span} (h : ∀ f t, m s = .failed f t → f.span.isSome) :
    within place m s = m s := by
  rw [within_eq_map]
  cases outcome : m s with
  | failed f t =>
    obtain ⟨inner, placed⟩ := Option.isSome_iff_exists.mp (h f t outcome)
    obtain ⟨cause, _⟩ := f
    obtain rfl : _ = some inner := placed
    rfl
  | _ => rfl

end Run

/-! ## Searching a block -/

mutual

/-- The declarations in a statement with their places, in order. -/
def Stmt.declared : Stmt → List (Span × Declarator)
  | .dim span name _ _ => [(span, .variable name)]
  | .const span name value => [(span, .constant name value)]
  | .procedure span decl => [(span, .procedure decl)]
  | .block _ body | .loop _ _ body _ _ | .count _ _ _ _ _ body | .forEach _ _ _ body
  | .withObject _ _ body | .includeFile _ _ (some body) => Stmt.declaredIn body
  | .branch _ _ thenBody elseBody => Stmt.declaredIn thenBody ++ Stmt.declaredIn elseBody
  | .select _ _ cases => Stmt.declaredInCases cases
  | .assign .. | .call .. | .redim .. | .classDecl .. | .property .. | .exit .. | .onError ..
  | .optionExplicit .. | .includeFile _ _ none => []

/-- The declarations in statements with their places, in order. -/
def Stmt.declaredIn : List Stmt → List (Span × Declarator)
  | [] => []
  | stmt :: rest => stmt.declared ++ Stmt.declaredIn rest

/-- The declarations in the cases of a `select` statement with their places, in order. -/
def Stmt.declaredInCases : List Case → List (Span × Declarator)
  | [] => []
  | .mk _ body :: rest => Stmt.declaredIn body ++ Stmt.declaredInCases rest

end

namespace Stmt

/-! ## Blocks of sources -/

/-- A statement where the readers put it, outside of classes. -/
def StandsOutside (stmt : Stmt) : Prop :=
  ∃ around holder, Placed around holder stmt ∧ ∀ s name members, holder ≠ some (.classDecl s name members)

theorem StandsOutside.inside {stmt inner : Stmt} {body : List Stmt} (h : stmt.StandsOutside)
    (noClass : ∀ s name members, stmt ≠ .classDecl s name members) (body_mem : body ∈ stmt.bodies)
    (mem : inner ∈ body) : inner.StandsOutside := by
  obtain ⟨around, holder, placed, -⟩ := h
  obtain ⟨around', placed', -⟩ := placed.inside body_mem mem
  exact ⟨around', some stmt, placed', fun s name members same => noClass s name members (Option.some.inj same)⟩

/-- Properties stand in classes only. -/
theorem StandsOutside.ne_property {stmt : Stmt} (h : stmt.StandsOutside) (s : Span) (form : PropertyForm)
    (decl : Procedure) (isDefault : Bool) : stmt ≠ .property s form decl isDefault := by
  rintro rfl
  obtain ⟨around, holder, placed, outside⟩ := h
  obtain ⟨s, name, members, rfl⟩ := placed.property
  exact outside s name members rfl

/-- A block of a source that parses: the whole program, or a body of a statement in it that is no
class.  The members of a class are no block. -/
inductive IsBlock : List Stmt → Prop
  | program {region : Region} {source : String} {program : List Stmt}
      (parses : programOf? region source = .ok program) : IsBlock program
  | body {region : Region} {source : String} {program block : List Stmt} {holder : Option Stmt}
      {stmt : Stmt} (parses : programOf? region source = .ok program)
      (occurs : Occurs program holder stmt)
      (noClass : ∀ s name members, stmt ≠ .classDecl s name members) (mem : block ∈ stmt.bodies) :
      IsBlock block

theorem IsBlock.standsOutside {block : List Stmt} (h : IsBlock block) :
    ∀ stmt ∈ block, stmt.StandsOutside := by
  have placed {region : Region} {source : String} {program : List Stmt}
      (parses : programOf? region source = .ok program) {holder : Option Stmt} {stmt : Stmt}
      (occurs : Occurs program holder stmt) : ∃ around, Placed around holder stmt := by
    have formed (stmt) (mem : stmt ∈ program) := ((fill_of_program parses).each stmt mem).formed
    obtain ⟨around, placed, -⟩ := occurs.placed formed rfl
    exact ⟨around, placed⟩
  intro stmt mem
  cases h with
  | program parses =>
    obtain ⟨around, placed⟩ := placed parses (.top mem)
    exact ⟨around, none, placed, nofun⟩
  | @body _ _ _ _ _ outer parses occurs noClass body_mem =>
    obtain ⟨around, placed⟩ := placed parses (.inside occurs body_mem mem)
    exact ⟨around, some outer, placed, fun s name members same =>
      noClass s name members (Option.some.inj same)⟩

/-- What is attached to a statement, if anything, is a block of a source that parses, apart from what
is attached in it. -/
def HoldsBlock (stmt : Stmt) : Prop := ∀ file, stmt.attached? = some file → IsBlock (eraseBody file)

/-- A block of a source that parses, with files of other such sources in any of the directives, and in
those of the files. -/
structure IsSpliced (block : List Stmt) : Prop where
  parsed : IsBlock (eraseBody block)
  files : EveryIn HoldsBlock block

/-- A statement of such a block, at any depth outside of classes and procedures. -/
structure InBlock (stmt : Stmt) : Prop where
  outside : stmt.erase.StandsOutside
  files : stmt.Every HoldsBlock

theorem IsBlock.inBlock {block : List Stmt} (h : IsBlock (eraseBody block))
    (files : EveryIn HoldsBlock block) : ∀ stmt ∈ block, stmt.InBlock := fun stmt mem =>
  ⟨h.standsOutside _ (eraseBody_eq_map block ▸ List.mem_map_of_mem mem), files stmt mem⟩

/-- The statements in a body that shares the frame of a statement in a block are in a block too. -/
theorem InBlock.own {stmt : Stmt} {body : List Stmt} (h : stmt.InBlock) (own : body ∈ stmt.ownBodies) :
    ∀ inner ∈ body, inner.InBlock := by
  cases holds : stmt.attached? with
  | some file =>
    obtain ⟨span, directive, rfl⟩ : ∃ span directive, stmt = .includeFile span directive (some file) := by
      cases stmt <;> first | exact ⟨_, _, congrArg _ holds⟩ | nomatch holds
    obtain rfl := List.mem_singleton.mp own
    exact (h.files.here body rfl).inBlock (h.files.attached rfl)
  | none =>
    have erased := erase_of_attached? holds
    have length : (stmt.bodies.map eraseBody).length = stmt.bodies.length := List.length_map _
    have bodies : stmt.erase.bodies = stmt.bodies.map eraseBody :=
      (congrArg Stmt.bodies erased).trans (bodies_withBodies length)
    have among : body ∈ stmt.bodies := by
      cases stmt with
      | includeFile span directive attached =>
        obtain rfl : attached = none := holds
        nomatch own
      | property span form decl isDefault =>
        cases decl
        exact own
      | assign | call | const | dim | redim | procedure | classDecl | exit | onError | optionExplicit =>
        nomatch own
      | _ => exact own
    have noClass (s name members) : stmt.erase ≠ .classDecl s name members := by
      cases stmt with
      | property span form decl isDefault =>
        cases decl
        nofun
      | procedure | classDecl => nomatch own
      | _ => nofun
    refine fun inner mem => ⟨h.outside.inside noClass (bodies ▸ List.mem_map_of_mem among) ?_,
      h.files.inside body among inner mem⟩
    exact eraseBody_eq_map body ▸ List.mem_map_of_mem mem

/-! ## Pages -/

theorem everyIn_isBare_of_program {region : Region} {source : String} {program : List Stmt}
    (parses : programOf? region source = .ok program) : EveryIn IsBare program := by
  have wellFormed : WellFormed program :=
    wellFormed_of_formed fun stmt mem => ((fill_of_program parses).each stmt mem).formed
  have every (stmt : Stmt) : ∀ holder, Occurs program holder stmt → stmt.Every IsBare := by
    induction stmt using induct with
    | step stmt inside _ =>
      intro holder occurs
      have bare : stmt.IsBare := by
        cases stmt with
        | includeFile => exact (wellFormed.includeFile occurs).1
        | _ => rfl
      exact .intro bare
        (fun body hbody inner hinner => inside body hbody inner hinner _ (.inside occurs hbody hinner))
        fun body h => nomatch bare.symm.trans h
  exact fun stmt mem => every stmt none (.top mem)

end Stmt

namespace Includer

variable {inc : Includer}

/-- The files that load are sources that parse. -/
def LoadsParsed (inc : Includer) : Prop :=
  ∀ file body, inc.load file = .ok body → ∃ region source, programOf? region source = .ok body

theorem programOf?_of_readProgram {path : Path} {region : Region} {source : String} {body : List Stmt}
    (h : readProgram path region source = .ok body) : programOf? region source = .ok body := by
  unfold readProgram at h
  split at h
  · cases h
    assumption
  · nomatch h

theorem loadsParsed_ofReader (reader : Reader) (rules : LoadRules) :
    (Includer.ofReader reader rules).LoadsParsed := by
  intro file body h
  simp only [Includer.ofReader] at h
  cases hread : reader.read file with
  | error =>
    simp only [hread] at h
    cases h
  | ok source =>
    simp only [hread] at h
    exact ⟨_, _, programOf?_of_readProgram h⟩

theorem Fills.every_holdsBlock (parsed : inc.LoadsParsed) {source : Path} {stmt : Stmt}
    (h : inc.Fills source stmt) : stmt.Every Stmt.HoldsBlock := by
  induction h with
  | plain bare _ _ inside =>
    exact .intro (fun _ h => nomatch bare.symm.trans h) inside fun _ h => nomatch bare.symm.trans h
  | directive loads _ inside =>
    obtain ⟨_, _, parses⟩ := parsed _ _ loads
    refine .intro (fun _ h => ?_) nofun fun _ h => ?_
    · cases h
      exact .program parses
    · cases h
      exact inside

/-- Whatever page is loaded is a block with its files. -/
theorem isSpliced_of_loadPage (parsed : inc.LoadsParsed) {path : Path} {page : List Stmt}
    (h : inc.loadPage path = .ok page) : Stmt.IsSpliced page := by
  have bare : inc.LoadsBare := fun file body loads => by
    obtain ⟨_, _, parses⟩ := parsed file body loads
    exact Stmt.everyIn_isBare_of_program parses
  cases loads : inc.load path with
  | error =>
    simp only [loadPage, loads] at h
    cases h
  | ok body =>
    simp only [loadPage, loads] at h
    obtain ⟨erased, filled⟩ := fillsIn_of_expandWithin bare (bare path body loads) h
    obtain ⟨_, _, parses⟩ := parsed path body loads
    exact ⟨erased ▸ .program parses, fun stmt mem => (filled stmt mem).every_holdsBlock parsed⟩

end Includer

namespace Stmt

/-! ## Declaring a block -/

open Declarator

/-- Where a statement declares what is inside it, faults have the places of statements inside. -/
theorem within_declare {place : Span} {m : Run Unit} {ds : List (Span × Declarator)}
    (h : m s = declareEach c ds s) : Run.within place m s = declareEach c ds s := by
  rw [within_of_placed fun f t failed => span_of_declareEach_failed (h ▸ failed), h]

theorem within_declarator {place : Span} {m : Run Unit} {d : Declarator} (h : m = d.declare c) :
    Run.within place m s = declareEach c [(place, d)] s :=
  h ▸ (bind_unit _ s).symm

mutual

theorem within_declare_eq : ∀ (stmt : Stmt), stmt.InBlock → ∀ s : State,
    Run.within stmt.span (stmt.declare c) s = declareEach c stmt.declared s
  | .dim .., _, _ | .const .., _, _ | .procedure .., _, _ => within_declarator rfl
  | .block _ body, h, s | .loop _ _ body _ _, h, s | .count _ _ _ _ _ body, h, s
  | .forEach _ _ _ body, h, s | .withObject _ _ body, h, s | .includeFile _ _ (some body), h, s =>
    within_declare (declareBody_eq_of_inBlock body (h.own (.head _)) s)
  | .branch _ _ thenBody elseBody, h, s =>
    within_declare <| (bind_congr_left (declareBody_eq_of_inBlock thenBody (h.own (.head _)) s)).trans <|
      (bind_congr _ (fun _ => declareBody_eq_of_inBlock elseBody (h.own (.tail _ (.head _)))) s).trans
        (declareEach_append _ _ s).symm
  | .select _ _ cases, h, s =>
    within_declare (declareCases_eq_of_inBlock cases (fun _ mem => h.own (List.mem_map_of_mem mem)) s)
  | .property span form (.mk ..) isDefault, h, _ => absurd rfl (h.outside.ne_property span form _ isDefault)
  | .assign .., _, _ | .call .., _, _ | .redim .., _, _ | .classDecl .., _, _ | .exit .., _, _
  | .onError .., _, _ | .optionExplicit .., _, _ | .includeFile _ _ none, _, _ => within_declare rfl

theorem declareBody_eq_of_inBlock : ∀ (body : List Stmt), (∀ stmt ∈ body, stmt.InBlock) → ∀ s : State,
    declareBody c body s = declareEach c (declaredIn body) s
  | [], _, _ => rfl
  | stmt :: rest, h, s =>
    (bind_congr_left (within_declare_eq stmt (h stmt (.head _)) s)).trans <|
      (bind_congr _ (fun _ => declareBody_eq_of_inBlock rest fun _ mem => h _ (.tail _ mem)) s).trans
        (declareEach_append _ _ s).symm

theorem declareCases_eq_of_inBlock : ∀ (cases : List Case),
    (∀ case ∈ cases, ∀ stmt ∈ case.body, stmt.InBlock) → ∀ s : State,
      declareCases c cases s = declareEach c (declaredInCases cases) s
  | [], _, _ => rfl
  | .mk _ body :: rest, h, s =>
    (bind_congr_left (declareBody_eq_of_inBlock body (h _ (.head _)) s)).trans <|
      (bind_congr _ (fun _ => declareCases_eq_of_inBlock rest fun _ mem => h _ (.tail _ mem)) s).trans
        (declareEach_append _ _ s).symm

end

/-- **A block declares what is found in it**, each at the place of its own statement. -/
theorem declareBody_eq {block : List Stmt} (spliced : IsSpliced block) (s : State) :
    declareBody c block s = declareEach c (declaredIn block) s :=
  declareBody_eq_of_inBlock block (spliced.parsed.inBlock spliced.files) s

/-- **Declaring a block declares exactly its declarations.**  It succeeds if and only if the frame
takes them all, which makes of the state what they say and nothing else; otherwise it fails at the
first of them that the frame refuses, for that reason and with its place. -/
theorem declareBody_declares {block : List Stmt} (spliced : IsSpliced block)
    (live : c.index < s.frames.size) :
    ((∃ t, declareBody c block s = .done () t) ↔ s.Admits c ((declaredIn block).map Prod.snd)) ∧
    (∀ t, declareBody c block s = .done () t →
      s.Declares c ((declaredIn block).map Prod.snd) t) ∧
    (¬ s.Admits c ((declaredIn block).map Prod.snd) → ∃ before place d cause t,
      FirstOffence s c (declaredIn block) before place d cause ∧
        declareBody c block s = .failed ⟨cause, some place⟩ t) := by
  rw [declareBody_eq spliced s]
  refine ⟨⟨fun ⟨t, done⟩ => ((declareEach_eq_done_iff live).mp done).1, fun admits =>
    ⟨_, (declareEach_eq_done_iff live).mpr ⟨admits, rfl⟩⟩⟩, fun t done => ?_, exists_firstOffence live⟩
  obtain ⟨admits, rfl⟩ := (declareEach_eq_done_iff live).mp done
  exact admits.declares live

/-- A page with a variable that includes a file with a constant: both names are declared. -/
theorem declareBody_declares_page :
    let inc : Includer := ⟨fun directive _ => ⟨directive.path⟩, fun path =>
      if path = ⟨"a"⟩ then readProgram path .code "const c = 1"
      else readProgram path .markup "<!--#include file=\"a\"--><% dim b %>", 2⟩
    ∃ page, inc.loadPage ⟨"p"⟩ = .ok page ∧ (declaredIn page).map (·.2.name.text) = ["c", "b"] ∧
      let s : State := (State.start default 1).mapFrames (·.pushRoot.2)
      ∃ t, declareBody ⟨0⟩ page s = .done () t ∧
        s.Declares ⟨0⟩ ((declaredIn page).map Prod.snd) t := by
  intro inc
  have names : (inc.loadPage ⟨"p"⟩).toOption.map (fun page => (declaredIn page).map (·.2.name.text)) =
      some ["c", "b"] := by decide +kernel
  have parsed : inc.LoadsParsed := fun file body h => by
    simp only [inc] at h
    split at h <;> exact ⟨_, _, Includer.programOf?_of_readProgram h⟩
  cases loads : inc.loadPage ⟨"p"⟩ with
  | error =>
    rw [loads] at names
    nomatch names
  | ok page =>
    rw [loads] at names
    have names : (declaredIn page).map (·.2.name.text) = ["c", "b"] := Option.some.inj names
    have distinct : ((declaredIn page).map (·.2.name.text)).Nodup := names ▸ by decide
    have admits : ((State.start default 1).mapFrames (·.pushRoot.2)).Admits ⟨0⟩
        ((declaredIn page).map Prod.snd) := by
      refine ⟨fun _ _ => rfl, fun _ _ => rfl, fun _ _ => rfl, ?_⟩
      rw [List.map_map]
      exact List.Nodup.of_map Name.text (by rwa [List.map_map])
    obtain ⟨succeeds, declares, -⟩ := declareBody_declares (c := ⟨0⟩)
      (Includer.isSpliced_of_loadPage parsed loads)
      (show 0 < ((State.start default 1).mapFrames (·.pushRoot.2)).frames.size by decide)
    obtain ⟨t, done⟩ := succeeds.mpr admits
    exact ⟨page, rfl, names, t, done, declares t done⟩

end Stmt

end PageScript
