import PageScript.Proofs.Syntax.Origins.Expressions
import PageScript.Proofs.Syntax.Origins.Readers
import PageScript.Proofs.Syntax.Tree.Source

/-!
# Proofs/Syntax/Origins/Statements — where the arguments in a program come from

`Stmt.ArgumentsFrom` lists the places that the arguments of a call in a statement may come from:
parentheses, the rest of a call statement behind its callee, the single argument of a call statement in
parentheses, and literal page content, which is written by calls of its own.  Assignments, calls and page
content are statements in which all arguments come from there (`Stmt.Traced`), and so is every statement
that holds others (`Parse.closed_traced`).  For whole programs this says where every argument was read and
what its tokens say about it (`Stmt.argumentsFrom_of_program`).
-/

namespace PageScript

open Parse Grammar
open Token (next)

/-- What literal page content is written with. -/
def Parse.writer (s : Span) : Expr :=
  .member s (.var s (Name.ofString "Response")) (Name.ofString "Write")

/-- Where the arguments of a call of a callee in a statement come from. -/
inductive Stmt.ArgumentsFrom (tokens : List Token) (stmt : Stmt) : (callee : Expr) → List Arg → Prop
  | none {callee : Expr} : ArgumentsFrom tokens stmt callee []
  | list {callee : Expr} {args : List Arg} {before behind : List Token}
      (h : InList tokens before args behind) : ArgumentsFrom tokens stmt callee args
  /-- They stand bare behind the callee of a call statement. -/
  | bare {s : Span} {callee head : Expr} {args : List Arg} {cs us ts rest : List Token}
      (statement : stmt = .call s (.call s callee args)) (suffix : cs <:+ tokens) (h : Head cs head us)
      (links : Linked head us callee.unplaced ts) (areWritten : Arg.AreWritten ts args rest) :
      ArgumentsFrom tokens stmt callee args
  /-- The statement is a callee with one argument in parentheses, which is passed by value. -/
  | kept {s : Span} {callee head : Expr} {arg : Arg} {cs us before rest : List Token}
      (statement : stmt = .call s (.call s callee [keptByValue arg])) (suffix : cs <:+ tokens)
      (h : Head cs head us) (links : Linked head us callee.unplaced before)
      (list : InList tokens before [arg] rest)
      (ends : ((next rest).endsStatement || (next rest).isKeyword .elseWord) = true) :
      ArgumentsFrom tokens stmt callee [keptByValue arg]
  /-- The statement prints the value behind the token that opens a print. -/
  | printed {s : Span} {value : Expr} {t : Token} {ts : List Token} {d : Cursor}
      (statement : stmt = writing value s) (suffix : t :: ts <:+ tokens) (ht : t.kind = .openPrint)
      (read : Expr.parse ⟨ts, t.span⟩ = .ok (value, d)) :
      ArgumentsFrom tokens stmt (writer s) [.mk value false]
  /-- The statement writes literal text. -/
  | text {t : Token} {ts : List Token} {text : String}
      (statement : stmt = writing (.literal t.span (.string text)) t.span) (suffix : t :: ts <:+ tokens)
      (ht : t.kind = .text text) :
      ArgumentsFrom tokens stmt (writer t.span) [.mk (.literal t.span (.string text)) false]

/-! ## Parts of expressions -/

namespace Expr

variable {tokens : List Token} {whole e callee : Expr} {args : List Arg} {s : Span}

/-- A part at any depth is the whole, or a part of one of its parts. -/
theorem Contains.eq_or_part (h : whole.Contains e) :
    e = whole ∨ ∃ part ∈ whole.parts, part.Contains e := by
  induction h with
  | whole => exact .inl rfl
  | part _ mem ih =>
    obtain rfl | ⟨part, mem', contains⟩ := ih
    · exact .inr ⟨_, mem, .whole⟩
    · exact .inr ⟨part, mem', .part contains mem⟩

theorem Traced.contains (h : whole.Traced tokens) (contains : whole.Contains e) : e.Traced tokens := by
  induction contains with
  | whole => exact h
  | part _ mem ih => exact ih.inside _ mem

theorem Traced.argumentsFrom (h : whole.Traced tokens) (stmt : Stmt)
    (contains : whole.Contains (.call s callee args)) : stmt.ArgumentsFrom tokens callee args := by
  obtain ⟨before, behind, list⟩ := (h.contains contains).here
  exact .list list

end Expr

namespace Stmt

variable {tokens : List Token} {stmt : Stmt} {callee : Expr} {args : List Arg} {s : Span}

/-- The arguments of all calls in a statement, those inside its bodies apart, come from tokens of the
page. -/
def Traced (tokens : List Token) (stmt : Stmt) : Prop :=
  ∀ e ∈ stmt.exprs, ∀ s callee args, e.Contains (.call s callee args) →
    stmt.ArgumentsFrom tokens callee args

/-- A statement and all statements inside it are traced. -/
abbrev AllTraced (tokens : List Token) (stmt : Stmt) : Prop := stmt.Every (Traced tokens)

theorem traced_of_exprs (h : ∀ e ∈ stmt.exprs, e.Traced tokens) : stmt.Traced tokens :=
  fun e mem _ _ _ contains => (h e mem).argumentsFrom stmt contains

/-- In a call statement the call itself may have its arguments from elsewhere. -/
theorem traced_call (h : (Stmt.call s (.call s callee args)).ArgumentsFrom tokens callee args)
    (hcallee : callee.Traced tokens) (hargs : ∀ arg ∈ args, arg.value.Traced tokens) :
    (Stmt.call s (.call s callee args)).Traced tokens := by
  intro e mem s' callee' args' contains
  obtain rfl := List.mem_singleton.mp mem
  obtain made | ⟨part, mem, contains⟩ := contains.eq_or_part
  · cases made
    exact h
  · have traced : part.Traced tokens := by
      obtain rfl | value := List.mem_cons.mp mem
      · exact hcallee
      · obtain ⟨arg, given, rfl⟩ := List.mem_map.mp value
        exact hargs arg given
    exact traced.argumentsFrom _ contains

theorem allTraced_leaf (h : ∀ e ∈ stmt.exprs, e.Traced tokens) (inside : stmt.bodies = [])
    (attached : stmt.attached? = none) : stmt.AllTraced tokens :=
  .leaf (traced_of_exprs h) inside attached

end Stmt

namespace Parse

variable {tokens : List Token} {c d : Cursor} {chain : Expr} {args : List Arg}

theorem gives_parse (page : Token.IsPage tokens) :
    Gives tokens Expr.parse (Expr.Traced tokens) := fun c suffix e d read => by
  obtain ⟨ts, p⟩ := c
  have taken := (Grammar.expression_of_parse (Nat.le_refl _) read).takes
  exact ⟨taken.suffix.trans suffix, (traces_parse page _).traced suffix (Nat.le_refl _) read⟩

/-! ## Assignments and calls -/

theorem traced_of_head {head : Expr} {ts us : List Token} (h : Head ts head.unplaced us) :
    head.Traced tokens := by
  generalize hhead : head.unplaced = e at h
  exact .of_unplaced (by cases h <;> exact hhead ▸ rfl)

/-- A chain that is no part of an expression. -/
theorem yields_chain_traced (page : Token.IsPage tokens) {f : Expr × Option Cursor → Parse Stmt}
    {Q : Stmt → Cursor → Prop} (suffix : c.rest <:+ tokens)
    (hnext : ∀ head us r d, d.rest <:+ tokens → Head c.rest head us →
      IsChain tokens head us r d.rest → Yields (f r) d Q) :
    Yields (chainHead >>= fun head => remaining >>= fun bound =>
      links Expr.parse bound head none >>= f) c Q := by
  intro stmt e read
  obtain ⟨head, ⟨us, q⟩, hhead, read⟩ := exists_of_bind read
  obtain ⟨_, _, found, read⟩ := exists_of_bind read
  cases found
  obtain ⟨r, d, hlinks, read⟩ := exists_of_bind read
  have first := head_of_chainHead hhead
  have within : us <:+ tokens := first.takes.suffix.trans suffix
  have start : IsChain tokens head.unplaced us (head, none) us :=
    ⟨traced_of_head first, .nil, nofun⟩
  have behind := links_of_links expression_of_parse head (Nat.le_succ _) (Nat.le_refl _) hlinks
  have chained := (traces_parse page us.length).links within (Nat.le_succ _) (Nat.le_refl _) start
    hlinks
  exact hnext _ us r d (behind.takes.suffix.trans within) first chained stmt e read

/-- Arguments behind a callee. -/
theorem yields_argumentsOf_traced (page : Token.IsPage tokens) {callee head : Expr}
    {cs us : List Token} (suffix : cs <:+ tokens) (hhead : Head cs head us)
    (linked : Linked head us callee.unplaced d.rest) (within : d.rest <:+ tokens)
    (traced : callee.Traced tokens) : Yields (argumentsOf callee) d fun stmt e =>
      e.rest <:+ tokens ∧ stmt.AllTraced tokens := by
  obtain ⟨ts, p⟩ := d
  intro stmt e read
  obtain ⟨args, f, listed, made⟩ := exists_of_bind read
  cases made
  obtain ⟨written, all⟩ :=
    (traces_parse page ts.length).commaList within (Nat.le_refl _) listed
  have behind := arguments_of_commaList expression_of_parse (Nat.le_refl _) listed
  exact ⟨behind.takes.suffix.trans within,
    .leaf (Stmt.traced_call (.bare rfl suffix hhead linked written) traced all) rfl rfl⟩

theorem value_keptByValue (arg : Arg) : (keptByValue arg).value = arg.value := by
  cases arg
  rfl

/-- A chain that is a statement. -/
theorem allTraced_callOfChain {head : Expr} {cs us rest : List Token} {opening : Option Cursor}
    (suffix : cs <:+ tokens) (hhead : Head cs head us)
    (h : IsChain tokens head us (chain, opening) rest)
    (ends : ((next rest).endsStatement || (next rest).isKeyword .elseWord) = true) :
    (Stmt.call chain.span (callOfChain chain opening.isSome)).AllTraced tokens := by
  have traced : chain.Traced tokens := h.traced
  cases chain with
  | call s callee args =>
    have hcallee : callee.Traced tokens := traced.inside _ List.mem_cons_self
    have hargs : ∀ arg ∈ args, arg.value.Traced tokens := fun arg mem =>
      traced.inside _ (List.mem_cons_of_mem _ (List.mem_map_of_mem mem))
    have listed (s : Span) : (Stmt.call s (.call s callee args)).AllTraced tokens := by
      obtain ⟨before, behind, list⟩ := traced.here
      exact .leaf (Stmt.traced_call (.list list) hcallee hargs) rfl rfl
    match args, opening with
    | [], _ => exact listed s
    | _ :: _ :: _, _ => exact listed s
    | [arg], none => exact listed s
    | [arg], some before =>
      obtain ⟨_, _, _, same, linked, list⟩ := h.opened before rfl
      cases same
      refine .leaf (Stmt.traced_call (.kept rfl suffix hhead linked list ends) hcallee ?_) rfl rfl
      exact List.forall_mem_singleton.mpr
        (value_keptByValue arg ▸ hargs arg (List.mem_singleton.mpr rfl))
  | _ =>
    exact .leaf (Stmt.traced_call .none traced nofun) rfl rfl

/-- A chain, and whatever the token behind it makes of it. -/
theorem yields_behindChain_traced (page : Token.IsPage tokens) {head : Expr} {cs us : List Token}
    {opening : Option Cursor} (suffix : cs <:+ tokens) (within : d.rest <:+ tokens)
    (hhead : Head cs head us) (h : IsChain tokens head us (chain, opening) d.rest) :
    Yields (behindChain chain opening) d fun stmt e =>
      e.rest <:+ tokens ∧ stmt.AllTraced tokens := by
  have traced : chain.Traced tokens := h.traced
  cases hassign : d.kind.isSymbol .eq with
  | true =>
    refine .of_run_eq (behindChain_assign hassign) ?_
    refine (gives_parse page _ (d.advance_suffix.trans within)).bind fun value e ⟨within, hvalue⟩ =>
      yields_pure ⟨within, Stmt.allTraced_leaf ?_ rfl rfl⟩
    exact List.forall_mem_cons.mpr ⟨traced, List.forall_mem_singleton.mpr hvalue⟩
  | false =>
    cases hend : d.kind.endsStatement || d.kind.isKeyword .elseWord with
    | true =>
      intro stmt e read
      cases (behindChain_call hassign hend).symm.trans read
      obtain ⟨ts, p⟩ := d
      exact ⟨within, allTraced_callOfChain suffix hhead h (Cursor.kind_mk_eq ts p ▸ hend)⟩
    | false =>
      intro stmt e read
      rw [behindChain_arguments hassign hend] at read
      have whole := yields_argumentsOf_traced page suffix hhead h.linked within traced
      cases opening with
      | none => cases chain <;> exact whole stmt e read
      | some before =>
        obtain ⟨s, callee, args, rfl, linked, list⟩ := h.opened before rfl
        have hcallee : callee.Traced tokens := traced.inside _ List.mem_cons_self
        exact yields_argumentsOf_traced page suffix hhead linked list.suffix hcallee stmt e read

theorem gives_assignmentOrCall (page : Token.IsPage tokens) :
    Gives tokens assignmentOrCall (Stmt.AllTraced tokens) := by
  intro c suffix
  rw [assignmentOrCall_eq]
  exact yields_chain_traced page suffix fun _ _ _ _ within hhead h =>
    yields_behindChain_traced page suffix within hhead h

/-- An assignment behind a word. -/
theorem gives_markedAssignment (page : Token.IsPage tokens) :
    Gives tokens markedAssignment (Stmt.AllTraced tokens) := by
  have target (start : Span) : Gives tokens (assignmentFrom start) (Stmt.AllTraced tokens) := by
    intro c suffix
    refine yields_chain_traced page suffix fun _ _ r d within _ h => ?_
    refine Gives.bind (stays_require _ _) (fun _ _ => ?_) d within
    refine (gives_parse page).bind fun value hvalue => gives_pure (Stmt.allTraced_leaf ?_ rfl rfl)
    exact List.forall_mem_cons.mpr ⟨h.traced, List.forall_mem_singleton.mpr hvalue⟩
  exact stays_advance.bind fun start _ => target start

/-- Behind the word `call` a chain keeps its arguments as they are. -/
theorem gives_callStatement (page : Token.IsPage tokens) :
    Gives tokens callStatement (Stmt.AllTraced tokens) := by
  refine stays_advance.bind fun start _ c suffix => ?_
  refine yields_chain_traced page suffix fun _ _ r d within _ h => ?_
  obtain ⟨chain, opening⟩ := r
  have traced : chain.Traced tokens := h.traced
  cases chain with
  | call s callee args =>
    obtain ⟨before, behind, list⟩ := traced.here
    refine yields_pure ⟨within, .leaf (Stmt.traced_call (.list list) ?_ fun arg mem => ?_) rfl rfl⟩
    · exact traced.inside _ List.mem_cons_self
    · exact traced.inside _ (List.mem_cons_of_mem _ (List.mem_map_of_mem mem))
  | _ => exact yields_pure ⟨within, .leaf (Stmt.traced_call .none traced nofun) rfl rfl⟩

/-! ## Page content -/

/-- A statement that writes a value to the response. -/
theorem allTraced_writing {value : Expr} {s : Span} (hvalue : value.Traced tokens)
    (h : (writing value s).ArgumentsFrom tokens (writer s) [.mk value false]) :
    (writing value s).AllTraced tokens :=
  .leaf (Stmt.traced_call h (.member (.leaf rfl)) (List.forall_mem_singleton.mpr hvalue)) rfl rfl

theorem gives_content (page : Token.IsPage tokens) : ∀ bound,
    Gives tokens (content bound) (Stmt.EveryIn (Stmt.Traced tokens))
  | 0 => gives_pure Stmt.everyIn_nil
  | bound + 1 => by
    intro c suffix
    have further {first : Stmt} (h : first.AllTraced tokens) :
        Gives tokens (content bound >>= fun rest => pure (first :: rest))
          (Stmt.EveryIn (Stmt.Traced tokens)) :=
      (gives_content page bound).bind fun _ hrest => gives_pure (Stmt.everyIn_cons.mpr ⟨h, hrest⟩)
    refine yields_span (yields_kind ?_)
    cases hk : c.kind with
    | text value =>
      obtain ⟨t, ts, rest, kind, span, -⟩ := Cursor.exists_cons (c := c) (hk ▸ rfl)
      refine Gives.bind stays_advance (fun _ _ => further ?_) c suffix
      rw [span]
      exact allTraced_writing (.leaf rfl) (.text rfl (rest ▸ suffix) (kind.symm.trans hk))
    | includeFile path isVirtual =>
      refine Gives.bind stays_advance (fun _ _ => further ?_) c suffix
      exact Stmt.allTraced_leaf nofun rfl rfl
    | openPrint =>
      obtain ⟨t, ts, rest, kind, -, taken⟩ := Cursor.exists_cons (c := c) (hk ▸ rfl)
      have within : t :: ts <:+ tokens := rest ▸ suffix
      intro body e read
      obtain ⟨_, d, passed, read⟩ := exists_of_bind read
      obtain rfl : d = ⟨ts, t.span⟩ := by
        cases passed
        exact taken
      obtain ⟨value, d', parsed, read⟩ := exists_of_bind read
      obtain ⟨within', traced⟩ :=
        gives_parse page _ ((List.suffix_cons t ts).trans within) value d' parsed
      have printed (s : Span) : (writing value s).AllTraced tokens :=
        allTraced_writing traced (.printed rfl within (kind.symm.trans hk) parsed)
      refine Gives.bind (stays_accept _) (fun closed _ => stays_kind.bind fun found _ => ?_) d'
        within' body e read
      exact .ite (gives_expected _) (stays_previous.bind fun _ _ => further (printed _))
    | _ => exact yields_pure ⟨suffix, Stmt.everyIn_nil⟩

theorem gives_pageContent (page : Token.IsPage tokens) :
    Gives tokens pageContent (Stmt.AllTraced tokens) :=
  stays_span.bind fun _ _ => stays_remaining.bind fun _ _ => (gives_content page _).bind
    fun _ hbody => stays_previous.bind fun _ _ => gives_pure
      (.intro (Stmt.traced_of_exprs nofun) (List.forall_mem_singleton.mpr hbody) nofun)

/-! ## Statements -/

variable {body : List Stmt} {s : Span}

theorem stays_literal : Stays tokens literal := by
  have signed : Stays tokens (signedNumber >>= fun x => pure (Literal.number x.1)) :=
    stays_signedNumber.bind fun _ _ => gives_pure trivial
  refine stays_kind.bind fun found _ => ?_
  split
  · exact signed
  · exact signed
  · exact signed
  · split
    · exact stays_advance.bind fun _ _ => gives_pure trivial
    · exact gives_expected _

/-- A block holds no expression of its own. -/
theorem allTraced_block (hbody : Stmt.EveryIn (Stmt.Traced tokens) body) :
    (Stmt.block s body).AllTraced tokens :=
  .intro (Stmt.traced_of_exprs nofun) (List.forall_mem_singleton.mpr hbody) nofun

theorem gives_redimStatement (page : Token.IsPage tokens) :
    Gives tokens redimStatement (Stmt.AllTraced tokens) := by
  have resized (preserve : Bool) : Gives tokens (resized preserve) (Stmt.AllTraced tokens) :=
    stays_span.bind fun _ _ => stays_identifier.bind fun _ _ => (stays_require _ _).bind fun _ _ =>
      (gives_commaList (gives_parse page)).bind fun _ hbounds => (stays_require _ _).bind fun _ _ =>
        stays_previous.bind fun _ _ => gives_pure (Stmt.allTraced_leaf hbounds rfl rfl)
  exact (stays_require _ _).bind fun start _ => (stays_accept _).bind fun preserve _ =>
    (gives_commaList (resized preserve)).bind fun _ hbody => stays_previous.bind fun _ _ =>
      gives_pure (allTraced_block hbody)

/-- A statement with one expression and one body. -/
theorem allTraced_of_body {stmt : Stmt} {e : Expr} (exprs : stmt.exprs = [e])
    (bodies : stmt.bodies = [body]) (attached : stmt.attached? = none) (he : e.Traced tokens)
    (hbody : Stmt.EveryIn (Stmt.Traced tokens) body) : stmt.AllTraced tokens :=
  .intro (Stmt.traced_of_exprs (exprs ▸ List.forall_mem_singleton.mpr he))
    (bodies ▸ List.forall_mem_singleton.mpr hbody) fun _ h => nomatch attached.symm.trans h

/-- Statements are traced if what is written in them is. -/
theorem closed_traced (page : Token.IsPage tokens) :
    Closed tokens (fun _ => True) (fun _ => True) (Expr.Traced tokens) (Stmt.AllTraced tokens) where
  identifier := stays_identifier
  literal := stays_literal
  parse := gives_parse page
  always _ := .leaf rfl
  one _ := .leaf rfl
  pageContent := gives_pageContent page
  assignmentOrCall := gives_assignmentOrCall page
  markedAssignment := gives_markedAssignment page
  callStatement := gives_callStatement page
  redimStatement := gives_redimStatement page
  dim _ := Stmt.allTraced_leaf nofun rfl rfl
  const _ _ := Stmt.allTraced_leaf nofun rfl rfl
  block := allTraced_block
  exit := Stmt.allTraced_leaf nofun rfl rfl
  onError := Stmt.allTraced_leaf nofun rfl rfl
  optionExplicit := Stmt.allTraced_leaf nofun rfl rfl
  branch hcond hthen helse := .intro (Stmt.traced_of_exprs (List.forall_mem_singleton.mpr hcond))
    (List.forall_mem_cons.mpr ⟨hthen, List.forall_mem_singleton.mpr helse⟩) nofun
  loop := allTraced_of_body rfl rfl rfl
  count _ hfirst hlast hstep hbody := .intro (Stmt.traced_of_exprs (List.forall_mem_cons.mpr
    ⟨hfirst, List.forall_mem_cons.mpr ⟨hlast, List.forall_mem_singleton.mpr hstep⟩⟩))
    (List.forall_mem_singleton.mpr hbody) nofun
  forEach _ := allTraced_of_body rfl rfl rfl
  select hsubject hconditions hbodies := by
    refine .intro (Stmt.traced_of_exprs (List.forall_mem_cons.mpr ⟨hsubject, fun e he => ?_⟩))
      (List.forall_mem_map.mpr hbodies) nofun
    obtain ⟨found, mem, he⟩ := List.mem_flatMap.mp he
    obtain ⟨conditions, body⟩ := found
    cases conditions with
    | none => nomatch he
    | some es => exact hconditions _ mem es rfl e he
  withObject := allTraced_of_body rfl rfl rfl
  procedure _ _ hbody := .intro (Stmt.traced_of_exprs nofun) (List.forall_mem_singleton.mpr hbody) nofun
  property _ _ hbody := .intro (Stmt.traced_of_exprs nofun) (List.forall_mem_singleton.mpr hbody) nofun
  classDecl _ hmembers :=
    .intro (Stmt.traced_of_exprs nofun) (List.forall_mem_singleton.mpr hmembers) nofun

end Parse

/-! ## Programs -/

namespace Stmt

open Parse

theorem everyIn_of_program {region : Region} {source : String} {program : List Stmt}
    (h : programOf? region source = .ok program) : EveryIn (Traced (tokensOf region source)) program :=
  (closed_traced (Token.isPage_tokensFrom _ _)).of_program h

theorem EveryIn.of_occurs {p : Stmt → Prop} {program : List Stmt} {holder : Option Stmt} {stmt : Stmt}
    (h : EveryIn p program) (occurs : Occurs program holder stmt) : stmt.Every p := by
  induction occurs with
  | top mem => exact h _ mem
  | inside _ body_mem mem ih => exact ih.inside _ body_mem _ mem

/-- **What is passed by reference is told by its tokens.**  Whatever the source, the arguments of every
call in it were read one by one from tokens of it, in parentheses or bare behind the callee of a call
statement, apart from the single argument of a callee that is a statement and from what literal content
writes.  An argument is marked if its tokens are one expression in one pair of parentheses; unmarked, it
is a place if they are an access chain or plus signs in front of what denotes a place, and any other
argument is copied (`Arg.WrittenAs`). -/
theorem argumentsFrom_of_program {region : Region} {source : String} {program : List Stmt}
    (h : programOf? region source = .ok program) {holder : Option Stmt} {stmt : Stmt}
    (occurs : Occurs program holder stmt) {e : Expr} (mem : e ∈ stmt.exprs) {s : Span} {callee : Expr}
    {args : List Arg} (contains : e.Contains (.call s callee args)) :
    stmt.ArgumentsFrom (tokensOf region source) callee args :=
  ((everyIn_of_program h).of_occurs occurs).here e mem s callee args contains

theorem argumentsFrom_bare :
    let callee := Expr.var ⟨0, 1⟩ (.ofString "p")
    let args := [Arg.mk (.var ⟨2, 3⟩ (.ofString "x")) false, .mk (.var ⟨5, 8⟩ (.ofString "y")) true]
    let stmt := Stmt.call ⟨0, 8⟩ (.call ⟨0, 8⟩ callee args)
    programOf? .code "p x, (y)" = .ok [stmt] ∧
      stmt.ArgumentsFrom (tokensOf .code "p x, (y)") callee args := by
  intro callee args stmt
  have parsed : programOf? .code "p x, (y)" = .ok [stmt] := by with_unfolding_all rfl
  exact ⟨parsed, argumentsFrom_of_program parsed (.top (List.mem_singleton.mpr rfl))
    (List.mem_singleton.mpr rfl) .whole⟩

/-- A plus sign is no part of an access chain, and leaves one what it is. -/
theorem shared_of_plus :
    let arg := Arg.mk (.var ⟨3, 4⟩ (.ofString "x")) false
    let stmt := Stmt.call ⟨0, 4⟩ (.call ⟨0, 4⟩ (.var ⟨0, 1⟩ (.ofString "p")) [arg])
    ∃ p plus x last, tokensOf .code "p +x" = [p, plus, x, last] ∧
      programOf? .code "p +x" = .ok [stmt] ∧ arg.IsWritten [plus, x] [last] ∧
        arg.byValue = false ∧ arg.value.isPlace = true ∧ ¬ Token.IsAccess [plus, x] := by
  intro arg stmt
  let plus : Token := ⟨.symbol .plus, ⟨2, 3⟩, false, false⟩
  let x : Token := ⟨.ident (.ofString "x"), ⟨3, 4⟩, false, true⟩
  let last : Token := ⟨.endOfPage, ⟨4, 4⟩, true, false⟩
  have read : argument Expr.parse ⟨[plus, x, last], ⟨0, 1⟩⟩ = .ok (arg, ⟨[last], ⟨3, 4⟩⟩) := rfl
  obtain ⟨taken, same, written⟩ := Arg.exists_isWritten read
  obtain rfl : [plus, x] = taken := List.append_cancel_right same
  refine ⟨⟨.ident (.ofString "p"), ⟨0, 1⟩, false, false⟩, plus, x, last, by with_unfolding_all rfl,
    by with_unfolding_all rfl, written, rfl, rfl, fun access => ?_⟩
  obtain ⟨name, h⟩ | h | h := access.next_eq <;> nomatch h

end Stmt

end PageScript
