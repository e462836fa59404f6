import PageScript.Proofs.Syntax.Abreast.Simple
import PageScript.Proofs.Syntax.Tree.Expressions
import PageScript.Proofs.Syntax.Tree.Forms

/-!
# Proofs/Syntax/Tree/Simple — what is read as a simple statement

Declarations of variables and constants, assignments, calls and the fixed forms: each reader yields a
statement of its form, in the bytes that it was read from (`Stmt.Sits`).  A statement that has a start
of its own reaches from there to the last token taken.
-/

namespace PageScript

/-! ## Statements in their places -/

namespace Stmt

variable {around : Enclosing} {lo lo' hi hi' : Nat} {stmt : Stmt} {body : List Stmt} {s : Span}

/-- A statement has the form for what encloses it, and lies in a range of bytes. -/
structure Sits (around : Enclosing) (lo hi : Nat) (stmt : Stmt) : Prop where
  lies : stmt.Lies lo hi
  formed : stmt.Formed around

/-- Statements sit in a range of bytes one behind another. -/
structure Fill (around : Enclosing) (lo hi : Nat) (body : List Stmt) : Prop where
  each : ∀ stmt ∈ body, stmt.Sits around lo hi
  order : InOrder body

theorem Sits.mono (h : stmt.Sits around lo hi) (hlo : lo' ≤ lo) (hhi : hi ≤ hi') :
    stmt.Sits around lo' hi' :=
  ⟨h.lies.mono hlo hhi, h.formed⟩

theorem Fill.mono (h : Fill around lo hi body) (hlo : lo' ≤ lo) (hhi : hi ≤ hi') :
    Fill around lo' hi' body :=
  ⟨fun stmt mem => (h.each stmt mem).mono hlo hhi, h.order⟩

theorem fill_nil : Fill around lo hi [] := ⟨nofun, .nil⟩

theorem fill_single (h : stmt.Sits around lo hi) : Fill around lo hi [stmt] :=
  ⟨List.forall_mem_singleton.mpr h, List.pairwise_singleton _ _⟩

theorem fill_of_row (row : InRow (Sits around) lo hi body) : Fill around lo hi body :=
  ⟨row.forall_mem Sits.mono, (row.imp Sits.lies).inOrder⟩

/-- A statement that stands on its own. -/
theorem Sits.alone (here : stmt.span.Lies lo hi) (stands : stmt.MayStand around)
    (exprs : ∀ e ∈ stmt.exprs, e.Lies stmt.span.start stmt.span.stop)
    (bodies : ∀ body ∈ stmt.bodies,
      Fill (stmt.enclosing around) stmt.span.start stmt.span.stop body) :
    stmt.Sits around lo hi where
  lies := .intro here exprs (fun body mem inner hinner => ((bodies body mem).each inner hinner).lies)
    fun body mem => (bodies body mem).order
  formed := .alone stands fun body mem inner hinner => ((bodies body mem).each inner hinner).formed

/-- A statement that stands on its own, from a start to the last token taken. -/
theorem Sits.upto {start : Span} {d : Cursor} (sound : d.Sound hi) (upto : start.Upto d)
    (le : lo ≤ start.start) (span_eq : stmt.span = start.merge d.previous)
    (stands : stmt.MayStand around) (exprs : ∀ e ∈ stmt.exprs, e.Lies start.start d.previous.stop)
    (bodies : ∀ body ∈ stmt.bodies,
      Fill (stmt.enclosing around) start.start d.previous.stop body) :
    stmt.Sits around lo d.previous.stop := by
  have whole := span_eq.trans upto.merge
  refine .alone (span_eq ▸ upto.lies sound le) stands ?_ ?_
  · rwa [whole]
  · rwa [whole]

/-- A block. -/
theorem Sits.group (here : s.Lies lo hi) (h : Gathers around body)
    (row : InRow Lies s.start s.stop body) : (Stmt.block s body).Sits around lo hi where
  lies := by
    refine .intro here nofun ?_ ?_
    · exact List.forall_mem_singleton.mpr (row.forall_mem Lies.mono)
    · exact List.forall_mem_singleton.mpr row.inOrder
  formed := .group h

/-- A statement with a property lies in a range of bytes. -/
structure LiesAs (P : Stmt → Prop) (lo hi : Nat) (stmt : Stmt) : Prop where
  lies : stmt.Lies lo hi
  holds : P stmt

theorem LiesAs.mono {P : Stmt → Prop} (h : LiesAs P lo hi stmt) (hlo : lo' ≤ lo) (hhi : hi ≤ hi') :
    LiesAs P lo' hi' stmt :=
  ⟨h.lies.mono hlo hhi, h.holds⟩

/-- A statement without expressions and bodies. -/
theorem Lies.leaf (here : stmt.span.Lies lo hi) (exprs : stmt.exprs = [])
    (bodies : stmt.bodies = []) : stmt.Lies lo hi :=
  .intro here (fun _ h => nomatch exprs ▸ h) (fun _ h => nomatch bodies ▸ h)
    fun _ h => nomatch bodies ▸ h

end Stmt

namespace Parse

variable {around : Enclosing} {hi lo : Nat} {c d e : Cursor} {start : Span}

/-! ## Declarations -/

theorem reads_arrayBound : ReadsIn hi arrayBound fun _ _ _ => True := by
  intro c h
  refine yields_kind ?_
  cases hk : c.kind with
  | number value =>
    dsimp only
    cases bound? value with
    | none => exact yields_expected _
    | some n => exact (yields_advance h (hk ▸ rfl)).bind fun _ _ ⟨took, _⟩ =>
        yields_pure ⟨took.toPasses, trivial⟩
  | _ => exact yields_expected _

theorem reads_declaredVariable (access : Access) :
    ReadsIn hi (declaredVariable access) (Stmt.LiesAs (Stmt.IsDim access)) := by
  intro c h
  refine yields_span ((yields_identifier h).bind fun name d took => ?_)
  have declared (bounds : Option (List Nat)) {e : Cursor} (keeps : d.Keeps hi e) :
      Yields (previous >>= fun p => pure (Stmt.dim (c.span.merge p) name bounds access)) e
        fun stmt e => c.Passes hi e ∧
          Stmt.LiesAs (Stmt.IsDim access) c.previous.stop e.previous.stop stmt := by
    have upto := (took.upto (Span.at_span c)).on keeps
    exact yields_previous (yields_pure ⟨took.toPasses.on keeps,
      .leaf (upto.lies keeps.sound h.span.start) rfl rfl, rfl⟩)
  refine yields_accept took.sound isEnd_of_isSymbol (fun _ paren => yields_kind ?_)
    (declared none took.sound.keeps)
  have further (bounds : List Nat) {e : Cursor} (keeps : d.Keeps hi e) :
      Yields (requireSymbol .rparen >>= fun _ => previous >>= fun p =>
        pure (Stmt.dim (c.span.merge p) name (some bounds) access)) e
          fun stmt e => c.Passes hi e ∧
            Stmt.LiesAs (Stmt.IsDim access) c.previous.stop e.previous.stop stmt :=
    (yields_requireSymbol .rparen keeps.sound).bind fun _ _ ⟨close, _⟩ =>
      declared (some bounds) (keeps.trans (close.keeps keeps.sound))
  refine .ite (fun _ => further [] (paren.keeps took.sound)) fun _ => ?_
  refine (yields_commaList (P := fun _ _ _ => True) reads_arrayBound paren.sound).bind
    fun bounds _ ⟨passes, _, _⟩ => ?_
  exact further bounds ((paren.keeps took.sound).trans (passes.keeps paren.sound))

/-- Declarations behind a word, with commas in between. -/
theorem yields_declarations {item : Parse Stmt} {P : Stmt → Prop}
    (hitem : ReadsIn hi item (Stmt.LiesAs P)) (h : c.Sound hi) :
    Yields (commaList item) c fun body d => c.Passes hi d ∧
      InRow Stmt.Lies c.previous.stop d.previous.stop body ∧ body ≠ [] ∧ ∀ stmt ∈ body, P stmt := by
  refine (yields_commaList hitem h).mono fun body d ⟨passes, row, some_item⟩ => ?_
  exact ⟨passes, row.imp Stmt.LiesAs.lies, some_item, fun stmt mem =>
    (row.forall_mem Stmt.LiesAs.mono stmt mem).holds⟩

/-- They are one block. -/
theorem yields_group {item : Parse Stmt} {P : Stmt → Prop} (hitem : ReadsIn hi item (Stmt.LiesAs P))
    (gathers : ∀ body : List Stmt, body ≠ [] → (∀ stmt ∈ body, P stmt) → Stmt.Gathers around body)
    (h : c.Sound hi) (upto : start.Upto c) (le : lo ≤ start.start) :
    Yields (commaList item >>= fun body => previous >>= fun p =>
      pure (Stmt.block (start.merge p) body)) c
        fun stmt d => c.Passes hi d ∧ stmt.Sits around lo d.previous.stop := by
  refine (yields_declarations hitem h).bind fun body d ⟨passes, row, some_item, each⟩ =>
    yields_previous (yields_pure ⟨passes, ?_⟩)
  have upto' := upto.on (passes.keeps h)
  refine .group (upto'.lies passes.sound le) (gathers body some_item each) ?_
  rw [upto'.merge]
  exact row.widen (Nat.le_trans upto.start h.order) Stmt.Lies.mono

theorem yields_variableGroup (access : Access) (h : c.Sound hi) (upto : start.Upto c)
    (le : lo ≤ start.start) : Yields (variableGroup start access) c fun stmt d =>
      c.Passes hi d ∧ stmt.Sits around lo d.previous.stop :=
  yields_group (reads_declaredVariable access) (fun _ => .dims) h upto le

theorem reads_literal : ReadsIn hi literal fun _ _ _ => True := by
  intro c h
  have signed : Yields (signedNumber >>= fun x => pure (Literal.number x.1)) c
      fun _ d => c.Passes hi d ∧ True :=
    (yields_signedNumber h).bind fun _ _ ⟨passes, _⟩ => yields_pure ⟨passes, trivial⟩
  have taken (value : Literal) (inside : c.kind.isEnd = false) :
      Yields (advance >>= fun _ => pure value) c fun _ d => c.Passes hi d ∧ True :=
    (yields_advance h inside).bind fun _ _ ⟨took, _⟩ => yields_pure ⟨took.toPasses, trivial⟩
  refine yields_kind ?_
  cases hk : c.kind with
  | number => exact signed
  | string => exact taken _ (hk ▸ rfl)
  | keyword word =>
    cases word <;> first | exact yields_expected _ | exact taken _ (hk ▸ rfl)
  | symbol sign => cases sign <;> first | exact yields_expected _ | exact signed
  | _ => exact yields_expected _

theorem reads_constant : ReadsIn hi constant (Stmt.LiesAs Stmt.IsConst) := by
  intro c h
  refine yields_span ((yields_identifier h).bind fun name c₁ took => ?_)
  refine (yields_requireSymbol .eq took.sound).bind fun _ c₂ ⟨sign, _⟩ => ?_
  refine (reads_literal sign.sound).bind fun value d ⟨passes, _⟩ => yields_previous (yields_pure ?_)
  have behind : c₁.Passes hi d := sign.toPasses.trans passes
  have upto := (took.upto (Span.at_span c)).on (behind.keeps took.sound)
  exact ⟨took.toPasses.trans behind, .leaf (upto.lies passes.sound h.span.start) rfl rfl, trivial⟩

/-- A single constant takes the bytes of its word too; several are one block. -/
theorem yields_constantGroup (h : c.Sound hi) (hstart : start.At c) (le : lo ≤ start.start) :
    Yields (constantGroup start) c fun stmt d =>
      c.Passes hi d ∧ stmt.Sits around lo d.previous.stop := by
  refine (yields_requireKeyword .constWord h).bind fun _ c₁ ⟨took, _⟩ => ?_
  refine (yields_declarations reads_constant took.sound).bind
    fun found d ⟨passes, row, some_constant, each⟩ => yields_previous ?_
  have behind : c.Passes hi d := took.toPasses.trans passes
  have upto : start.Upto d := (took.upto hstart).on (passes.keeps took.sound)
  have here := upto.lies passes.sound le
  match found with
  | [] => exact absurd rfl some_constant
  | [single] =>
    refine yields_pure ⟨behind, ?_⟩
    cases single with
    | const => exact .alone here trivial nofun nofun
    | _ => exact (each _ (List.mem_singleton.mpr rfl)).elim
  | first :: second :: rest =>
    refine yields_pure ⟨behind, .group here (.consts (Nat.le_add_left 2 _) each) ?_⟩
    rw [upto.merge]
    exact row.widen (Nat.le_trans (took.upto hstart).start took.sound.order) Stmt.Lies.mono

theorem reads_resized (preserve : Bool) :
    ReadsIn hi (resized preserve) (Stmt.LiesAs (Stmt.IsRedim preserve)) := by
  intro c h
  refine yields_span ((yields_identifier h).bind fun name c₁ took => ?_)
  refine (yields_requireSymbol .lparen took.sound).bind fun _ c₂ ⟨paren, _⟩ => ?_
  refine (yields_commaList Expr.reads_parse paren.sound).bind fun bounds c₃ ⟨passes, row, _⟩ => ?_
  refine (yields_requireSymbol .rparen passes.sound).bind fun _ d ⟨close, _⟩ =>
    yields_previous (yields_pure ?_)
  have behind : c₁.Passes hi d := (paren.toPasses.trans passes).trans close.toPasses
  have first := took.upto (Span.at_span c)
  have upto := first.on (behind.keeps took.sound)
  refine ⟨took.toPasses.trans behind, .intro (upto.lies close.sound h.span.start) ?_ nofun nofun, rfl⟩
  intro e he
  rw [Stmt.span, upto.merge]
  refine (row.forall_mem Expr.Lies.mono e he).mono ?_ close.stop_le
  exact Nat.le_trans first.start (Nat.le_trans took.sound.order paren.stop_le)

theorem reads_redimStatement (outside : around.inClass = false) :
    ReadsIn hi redimStatement (Stmt.Sits around) := by
  intro c h
  refine (yields_requireKeyword .reDimWord h).bind fun _ d ⟨took, hstart⟩ => ?_
  obtain rfl := hstart
  have group (preserve : Bool) {e : Cursor} (keeps : d.Keeps hi e) :
      Yields (commaList (resized preserve) >>= fun body => previous >>= fun p =>
        pure (Stmt.block (d.previous.merge p) body)) e
          fun stmt e => c.Passes hi e ∧ stmt.Sits around c.previous.stop e.previous.stop :=
    (yields_group (reads_resized preserve) (fun _ => .redims outside) keeps.sound
      ((Span.upto_previous d).on keeps) took.le).mono fun _ _ ⟨passes, sits⟩ =>
        ⟨(took.toPasses.on keeps).trans passes, sits⟩
  exact yields_accept took.sound isEnd_of_isWord (fun _ word => group true (word.keeps took.sound))
    (group false took.sound.keeps)

/-! ## Assignments and calls -/

/-- A chain that is no part of an expression. -/
theorem yields_chain {f : Expr × Option Cursor → Parse Stmt} {Q : Stmt → Cursor → Prop}
    (h : c.Sound hi) (hnext : ∀ chain opening d, c.Passes hi d →
      chain.Lies c.previous.stop d.previous.stop → Opens hi c chain opening →
        Yields (f (chain, opening)) d Q) :
    Yields (chainHead >>= fun head => remaining >>= fun bound =>
      links Expr.parse bound head none >>= f) c Q :=
  (reads_chainHead h).bind fun _ _ ⟨passes, lies⟩ => yields_remaining <|
    (yields_links Expr.reads_parse passes lies opens_none).bind
      fun _ _ ⟨passes, lies, opens⟩ => hnext _ _ _ passes lies opens

end Parse

/-- An assignment with its target and its value. -/
theorem Stmt.Sits.assigned {around : Enclosing} {lo hi : Nat} {s : Span} {target value : Expr}
    (outside : around.inClass = false) (here : s.Lies lo hi)
    (htarget : target.Lies s.start s.stop) (hvalue : value.Lies s.start s.stop) :
    (Stmt.assign s target value).Sits around lo hi :=
  .alone here outside (List.forall_mem_cons.mpr ⟨htarget, List.forall_mem_singleton.mpr hvalue⟩)
    nofun

/-- A call with its callee and its arguments. -/
theorem Stmt.Sits.applied {around : Enclosing} {lo hi : Nat} {s : Span} {callee : Expr}
    {args : List Arg} (outside : around.inClass = false) (here : s.Lies lo hi)
    (hcallee : callee.Lies s.start s.stop) (hargs : ∀ arg ∈ args, arg.Lies s.start s.stop) :
    (Stmt.call s (.call s callee args)).Sits around lo hi := by
  refine .alone here ⟨outside, s, callee, args, rfl⟩ (List.forall_mem_singleton.mpr ?_) nofun
  exact .call ⟨Nat.le_refl _, here.order, Nat.le_refl _⟩ hcallee hargs

/-- A whole chain as a call. -/
theorem Stmt.Sits.callOfChain {around : Enclosing} {lo hi : Nat} {chain : Expr}
    (outside : around.inClass = false) (h : chain.Lies lo hi) (endsInArguments : Bool) :
    (Stmt.call chain.span (Parse.callOfChain chain endsInArguments)).Sits around lo hi := by
  cases chain with
  | call s callee args =>
    obtain ⟨here, hcallee, hargs⟩ := h.of_call
    match args with
    | [] | _ :: _ :: _ => exact .applied outside here hcallee hargs
    | [.mk value byValue] =>
      have kept (arg : Arg) (same : arg.value = value) :
          (Stmt.call s (.call s callee [arg])).Sits around lo hi :=
        .applied outside here hcallee (List.forall_mem_singleton.mpr <| by
          rw [Arg.Lies, same]
          exact hargs _ (List.mem_singleton.mpr rfl))
      cases endsInArguments with
      | true => exact kept (.mk value true) rfl
      | false => exact kept (.mk value byValue) rfl
  | _ => exact .applied outside h.here h.self nofun

namespace Parse

variable {around : Enclosing} {hi lo : Nat} {c d e : Cursor} {start : Span}

theorem yields_argumentsOf {callee : Expr} (outside : around.inClass = false)
    (passes : c.Passes hi d) (lies : callee.Lies c.previous.stop d.previous.stop) :
    Yields (argumentsOf callee) d fun stmt e =>
      c.Passes hi e ∧ stmt.Sits around c.previous.stop e.previous.stop := by
  refine (yields_commaList (reads_argument Expr.reads_parse) passes.sound).bind
    fun args e ⟨more, row, _⟩ => yields_previous (yields_pure ⟨passes.trans more, ?_⟩)
  have upto : callee.span.Upto e := lies.here.upto more
  refine .applied outside (upto.lies more.sound lies.here.start) ?_ fun arg harg => ?_
  · rw [upto.merge]
    exact lies.self.mono (Nat.le_refl _) upto.stop
  · rw [upto.merge]
    refine (row.forall_mem Expr.Lies.mono arg harg).mono ?_ (Nat.le_refl _)
    exact Nat.le_trans lies.here.order lies.here.stop

/-- Behind its chain a statement ends, or a value follows, or arguments do; if the chain ends in
arguments, they are then read again, from the place before their parenthesis. -/
theorem yields_behindChain {chain : Expr} {opening : Option Cursor}
    (outside : around.inClass = false) (passes : c.Passes hi d)
    (lies : chain.Lies c.previous.stop d.previous.stop) (opens : Opens hi c chain opening) :
    Yields (behindChain chain opening) d fun stmt e =>
      c.Passes hi e ∧ stmt.Sits around c.previous.stop e.previous.stop := by
  cases hassign : d.kind.isSymbol .eq with
  | true =>
    refine .of_run_eq (behindChain_assign hassign) ?_
    obtain ⟨sign, -⟩ := passes.sound.advance (isEnd_of_isSymbol _ hassign)
    refine (Expr.reads_parse sign.sound).bind fun value e ⟨read, hvalue⟩ => yields_pure ?_
    refine ⟨(passes.trans sign).trans read, ?_⟩
    have behind := hvalue.mono sign.stop_le (Nat.le_refl _)
    obtain ⟨first, second, first', second'⟩ := chain.span.le_merge value.span
    exact .assigned outside (lies.here.merge behind.here) (lies.self.mono first first')
      (hvalue.self.mono second second')
  | false =>
    cases hend : d.kind.endsStatement || d.kind.isKeyword .elseWord with
    | true =>
      refine fun stmt e hr => ?_
      cases (behindChain_call hassign hend).symm.trans hr
      exact ⟨passes, .callOfChain outside lies _⟩
    | false =>
      refine fun stmt e hr => ?_
      rw [behindChain_arguments hassign hend] at hr
      have whole := yields_argumentsOf outside passes lies
      cases opening with
      | none => cases chain <;> exact whole stmt e hr
      | some before =>
        obtain ⟨passes, s, callee, args, rfl, hcallee⟩ := opens before rfl
        exact yields_argumentsOf outside passes hcallee stmt e hr

theorem reads_assignmentOrCall (outside : around.inClass = false) :
    ReadsIn hi assignmentOrCall (Stmt.Sits around) := by
  intro c h
  rw [assignmentOrCall_eq]
  exact yields_chain h fun _ _ _ passes lies opens => yields_behindChain outside passes lies opens

/-- An assignment behind a word. -/
theorem reads_markedAssignment (outside : around.inClass = false) (h : c.Sound hi)
    (inside : c.kind.isEnd = false) : Yields markedAssignment c fun stmt d =>
      c.Passes hi d ∧ stmt.Sits around c.previous.stop d.previous.stop := by
  refine (yields_advance h inside).bind fun _ c₁ ⟨took, hstart⟩ => ?_
  obtain rfl := hstart
  refine yields_chain took.sound fun target _ c₂ passes lies _ => ?_
  refine (yields_requireSymbol .eq passes.sound).bind fun _ c₃ ⟨sign, _⟩ => ?_
  refine (Expr.reads_parse sign.sound).bind fun value d ⟨read, hvalue⟩ => yields_pure ?_
  have behind : c₁.Passes hi d := (passes.trans sign.toPasses).trans read
  refine ⟨took.toPasses.trans behind, ?_⟩
  have later := hvalue.mono (Nat.le_trans passes.stop_le sign.stop_le) (Nat.le_refl _)
  obtain ⟨first, second, -, second'⟩ := c₁.previous.le_merge value.span
  refine .assigned outside (took.lies.merge later.here) (lies.mono ?_ ?_)
    (hvalue.self.mono second second')
  · exact Nat.le_trans first took.sound.order
  · exact Nat.le_trans sign.stop_le (Nat.le_trans hvalue.here.start
      (Nat.le_trans hvalue.here.order second'))

theorem reads_callStatement (outside : around.inClass = false) (h : c.Sound hi)
    (inside : c.kind.isEnd = false) : Yields callStatement c fun stmt d =>
      c.Passes hi d ∧ stmt.Sits around c.previous.stop d.previous.stop := by
  refine (yields_advance h inside).bind fun _ c₁ ⟨took, hstart⟩ => ?_
  obtain rfl := hstart
  refine yields_chain took.sound fun chain _ d passes lies _ => ?_
  have here := took.lies.merge lies.here
  obtain ⟨-, first, -, last⟩ := c₁.previous.le_merge chain.span
  have whole := lies.self.mono first last
  have behind : c.Passes hi d := took.toPasses.trans passes
  cases chain with
  | call s callee args =>
    obtain ⟨-, hcallee, hargs⟩ := lies.of_call
    exact yields_pure ⟨behind, .applied outside here (hcallee.mono first last)
      fun arg harg => (hargs arg harg).mono first last⟩
  | _ => exact yields_pure ⟨behind, .applied outside here whole nofun⟩

/-! ## Fixed forms -/

/-- A statement from the word that it starts with to the last token taken. -/
theorem Took.headed {stmt : Stmt} (took : Took hi c d) (keeps : d.Keeps hi e)
    (span_eq : stmt.span = d.previous.merge e.previous) (stands : stmt.MayStand around)
    (exprs : ∀ x ∈ stmt.exprs, x.Lies d.previous.start e.previous.stop)
    (bodies : ∀ body ∈ stmt.bodies,
      Stmt.Fill (stmt.enclosing around) d.previous.start e.previous.stop body) :
    c.Passes hi e ∧ stmt.Sits around c.previous.stop e.previous.stop :=
  ⟨took.toPasses.on keeps,
    .upto keeps.sound ((Span.upto_previous d).on keeps) took.le span_eq stands exprs bodies⟩

/-- A statement of fixed words. -/
theorem Took.fixed {stmt : Stmt} (took : Took hi c d) (keeps : d.Keeps hi e)
    (span_eq : stmt.span = d.previous.merge e.previous) (stands : stmt.MayStand around)
    (exprs : stmt.exprs = []) (bodies : stmt.bodies = []) :
    c.Passes hi e ∧ stmt.Sits around c.previous.stop e.previous.stop :=
  took.headed keeps span_eq stands (fun _ h => nomatch exprs ▸ h) fun _ h => nomatch bodies ▸ h

theorem reads_exitStatement (outside : around.inClass = false) :
    ReadsIn hi exitStatement (Stmt.Sits around) := by
  intro c h
  refine (yields_requireKeyword .exitWord h).bind fun _ d ⟨took, hstart⟩ => ?_
  obtain rfl := hstart
  have leave (target : ExitTarget) (inside : d.kind.isEnd = false) :
      Yields (advance >>= fun stop => pure (Stmt.exit (d.previous.merge stop) target)) d
        fun stmt e => c.Passes hi e ∧ stmt.Sits around c.previous.stop e.previous.stop :=
    (yields_advance took.sound inside).bind fun _ _ ⟨word, hstop⟩ => yields_pure <|
      took.fixed (word.keeps took.sound) (congrArg (d.previous.merge ·) hstop) outside rfl rfl
  refine yields_kind ?_
  split
  · exact leave _ (by rw [‹d.kind = _›]; rfl)
  · exact leave _ (by rw [‹d.kind = _›]; rfl)
  · exact leave _ (by rw [‹d.kind = _›]; rfl)
  · exact leave _ (by rw [‹d.kind = _›]; rfl)
  · exact leave _ (by rw [‹d.kind = _›]; rfl)
  · exact yields_expected _

theorem reads_optionStatement (outside : around.inClass = false) :
    ReadsIn hi optionStatement (Stmt.Sits around) := by
  intro c h
  refine (yields_requireKeyword .optionWord h).bind fun _ d ⟨took, hstart⟩ => ?_
  obtain rfl := hstart
  have switched (on : Bool) {e : Cursor} (keeps : d.Keeps hi e) :
      Yields (previous >>= fun p => pure (Stmt.optionExplicit (d.previous.merge p) on)) e
        fun stmt e => c.Passes hi e ∧ stmt.Sits around c.previous.stop e.previous.stop :=
    yields_previous (yields_pure (took.fixed keeps rfl outside rfl rfl))
  refine (yields_requireWord "explicit" took.sound).bind fun _ e ⟨word, _⟩ => ?_
  have keeps := word.keeps took.sound
  refine yields_accept word.sound isEnd_of_isWord
    (fun _ off => switched false (keeps.trans (off.keeps word.sound))) ?_
  exact yields_accept word.sound isEnd_of_isWord
    (fun _ on => switched true (keeps.trans (on.keeps word.sound))) (switched true keeps)

theorem isEnd_of_isZero : ∀ found, isZero found = true → found.isEnd = false :=
  fun found h => TokenKind.isEnd_of_isProper (isProper_of_isZero found h)

theorem reads_onErrorStatement (outside : around.inClass = false) :
    ReadsIn hi onErrorStatement (Stmt.Sits around) := by
  intro c h
  refine (yields_requireWord "on" h).bind fun _ d ⟨took, hstart⟩ => ?_
  obtain rfl := hstart
  have policy (kind : ErrorPolicy) {e : Cursor} (keeps : d.Keeps hi e) :
      Yields (previous >>= fun p => pure (Stmt.onError (d.previous.merge p) kind)) e
        fun stmt e => c.Passes hi e ∧ stmt.Sits around c.previous.stop e.previous.stop :=
    yields_previous (yields_pure (took.fixed keeps rfl outside rfl rfl))
  refine (yields_requireWord "error" took.sound).bind fun _ e ⟨word, _⟩ => ?_
  have keeps := word.keeps took.sound
  refine yields_accept word.sound isEnd_of_isWord (fun _ resume => ?_) ?_
  · have keeps := keeps.trans (resume.keeps word.sound)
    exact (yields_requireKeyword .nextWord resume.sound).bind fun _ _ ⟨next, _⟩ =>
      policy _ (keeps.trans (next.keeps resume.sound))
  · refine (yields_requireWord "goto" word.sound).bind fun _ _ ⟨goto, _⟩ => ?_
    have keeps := keeps.trans (goto.keeps word.sound)
    exact (yields_require goto.sound isEnd_of_isZero).bind fun _ _ ⟨zero, _⟩ =>
      policy _ (keeps.trans (zero.keeps goto.sound))

end Parse

end PageScript
