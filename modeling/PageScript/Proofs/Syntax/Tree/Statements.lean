import PageScript.Proofs.Syntax.Abreast.Statements
import PageScript.Proofs.Syntax.Tree.Blocks

/-!
# Proofs/Syntax/Tree/Statements — whole statements

Procedures, properties and classes, and the choice of a reader by the first token.  Where a class
encloses the statement, it starts with one of the words that start a member (`TokenKind.startsMember`);
nothing but a declaration is read there then.
-/

namespace PageScript

/-- The token starts a member of a class. -/
def TokenKind.startsMember (kind : TokenKind) : Bool :=
  [Keyword.dimWord, .publicWord, .privateWord, .constWord, .functionWord, .subWord,
    .propertyWord].any fun k => kind.isKeyword k

namespace Parse

variable {inner : Enclosing → Parse Stmt} {around : Enclosing} {hi lo bound : Nat} {c d : Cursor}
  {start : Span}

/-- The statements that a reader reads sit where they were read. -/
def ReadsStatements (hi : Nat) (inner : Enclosing → Parse Stmt) : Prop :=
  ∀ (around : Enclosing) {c : Cursor}, c.Sound hi →
    (around.inClass = true → c.kind.startsMember = true) → Yields (inner around) c fun stmt d =>
      c.Passes hi d ∧ stmt.Sits around c.previous.stop d.previous.stop

/-- Outside classes they may start with any token. -/
theorem ReadsStatements.outside (h : ReadsStatements hi inner) (outside : around.inClass = false) :
    ReadsIn hi (inner around) (Stmt.Sits around) :=
  fun sound => h around sound fun inClass => nomatch outside.symm.trans inClass

/-! ## Procedures and properties -/

theorem reads_namedParameter (byRef : Bool) :
    ReadsIn hi (namedParameter byRef) fun _ _ _ => True := by
  intro c h
  refine (yields_identifier h).bind fun name c₁ took => yields_get ?_
  refine .ite (fun marked => ?_) fun _ => yields_pure ⟨took.toPasses, trivial⟩
  obtain ⟨opens, closes⟩ := (Bool.and_eq_true _ _).mp marked
  have inside := isEnd_of_isSymbol _ opens
  obtain ⟨first, -⟩ := took.sound.advance inside
  obtain ⟨second, -⟩ := first.sound.advance
    (Cursor.kind_advance inside ▸ isEnd_of_isSymbol _ closes)
  exact .of_run_eq (d := c₁.advance.advance) rfl
    (yields_pure ⟨(took.toPasses.trans first).trans second, trivial⟩)

theorem reads_parameter : ReadsIn hi parameter fun _ _ _ => True := by
  intro c h
  have behind (byRef : Bool) {d : Cursor} (took : Took hi c d) :
      Yields (namedParameter byRef) d fun _ d => c.Passes hi d ∧ True :=
    (reads_namedParameter byRef took.sound).mono fun _ _ ⟨passes, _⟩ =>
      ⟨took.toPasses.trans passes, trivial⟩
  refine yields_accept h isEnd_of_isKeyword (fun _ word => behind true word) ?_
  exact yields_accept h isEnd_of_isKeyword (fun _ word => behind false word)
    (reads_namedParameter false h)

theorem yields_parameters (h : c.Sound hi) : Yields parameters c fun _ d => c.Keeps hi d := by
  refine yields_accept h isEnd_of_isSymbol (fun c₁ paren => ?_) (yields_pure h.keeps)
  refine yields_accept paren.sound isEnd_of_isSymbol
    (fun _ close => yields_pure ((paren.toPasses.trans close.toPasses).keeps h)) ?_
  refine (yields_commaList (P := fun _ _ _ => True) reads_parameter paren.sound).bind
    fun found c₂ ⟨passes, _, _⟩ => ?_
  exact (yields_requireSymbol .rparen passes.sound).bind fun _ _ ⟨close, _⟩ =>
    yields_pure (((paren.toPasses.trans passes).trans close.toPasses).keeps h)

theorem yields_outsideProcedure (around : Enclosing) :
    Yields (outsideProcedure around) c fun _ d => c = d ∧ around.inProcedure = false :=
  .ite (fun _ => yields_failAt _) fun outside =>
    yields_pure ⟨rfl, Bool.eq_false_iff.mpr outside⟩

variable (hinner : ReadsStatements hi inner)
include hinner

theorem yields_namedProcedure (isSub : Bool) (access : Access)
    (outside : around.inProcedure = false) (h : c.Sound hi) (upto : start.Upto c)
    (le : lo ≤ start.start) : Yields (namedProcedure inner isSub start access) c fun stmt d =>
      c.Passes hi d ∧ stmt.Sits around lo d.previous.stop := by
  refine (yields_identifier h).bind fun name c₁ took => ?_
  refine (yields_parameters took.sound).bind fun params c₂ keeps => ?_
  refine (yields_blockUntil _ (hinner.outside rfl) keeps.sound).bind fun body c₃ ⟨onward, fills⟩ => ?_
  refine (yields_requireKeyword .endWord onward.sound).bind fun _ c₄ ⟨close, _⟩ => ?_
  refine (yields_requireKeyword _ close.sound).bind fun _ d ⟨final, _⟩ =>
    yields_previous (yields_pure ?_)
  have first : c.Passes hi c₂ := took.toPasses.on keeps
  have behind := close.toPasses.trans final.toPasses
  have passes : c.Passes hi d := (first.on onward).trans behind
  have := upto.start
  have := h.order
  have := first.stop_le
  have := behind.stop_le
  exact ⟨passes, .upto final.sound (upto.on (passes.keeps h)) le rfl outside nofun
    (List.forall_mem_singleton.mpr (fills.mono (by omega) (by omega)))⟩

theorem yields_procedureFrom (around : Enclosing) (access : Access) (h : c.Sound hi)
    (hstart : start.At c) (le : lo ≤ start.start) :
    Yields (procedureFrom inner around start access) c fun stmt d =>
      c.Passes hi d ∧ stmt.Sits around lo d.previous.stop := by
  refine (yields_outsideProcedure around).bind fun _ _ ⟨same, outside⟩ => ?_
  obtain rfl := same
  have named (isSub : Bool) {d : Cursor} (took : Took hi c d) :
      Yields (namedProcedure inner isSub start access) d fun stmt d =>
        c.Passes hi d ∧ stmt.Sits around lo d.previous.stop :=
    (yields_namedProcedure hinner isSub access outside took.sound (took.upto hstart) le).mono
      fun _ _ ⟨passes, sits⟩ => ⟨took.toPasses.trans passes, sits⟩
  refine yields_accept h isEnd_of_isKeyword (fun _ word => named true word) ?_
  exact (yields_requireKeyword .functionWord h).bind fun _ _ ⟨word, _⟩ => named false word

omit hinner in
theorem yields_propertyForm (h : c.Sound hi) : Yields propertyForm c fun _ d => c.Passes hi d := by
  refine yields_accept h isEnd_of_isKeyword (fun _ word => yields_pure word.toPasses) ?_
  refine yields_accept h isEnd_of_isWord (fun _ word => yields_pure word.toPasses) ?_
  exact yields_accept h isEnd_of_isWord (fun _ word => yields_pure word.toPasses)
    (yields_expected _)

theorem yields_propertyFrom (around : Enclosing) (access : Access) (isDefault : Bool)
    (h : c.Sound hi) (hstart : start.At c) (le : lo ≤ start.start) :
    Yields (propertyFrom inner around start access isDefault) c fun stmt d =>
      c.Passes hi d ∧ stmt.Sits around lo d.previous.stop := by
  refine .ite (fun _ => yields_failAt _) fun member => ?_
  have inClass : around.inClass = true := by simpa using member
  refine (yields_requireKeyword .propertyWord h).bind fun _ c₁ ⟨took, _⟩ => ?_
  refine (yields_propertyForm took.sound).bind fun form c₂ word => ?_
  refine (yields_identifier word.sound).bind fun name c₃ named => ?_
  refine (yields_parameters named.sound).bind fun params c₄ keeps => ?_
  refine (yields_blockUntil _ (hinner.outside rfl) keeps.sound).bind fun body c₅ ⟨onward, fills⟩ => ?_
  refine (yields_requireKeyword .endWord onward.sound).bind fun _ c₆ ⟨close, _⟩ => ?_
  refine (yields_requireKeyword .propertyWord close.sound).bind fun _ d ⟨final, _⟩ =>
    yields_previous (yields_pure ?_)
  have first : c₁.Passes hi c₄ := (word.trans named.toPasses).on keeps
  have behind := close.toPasses.trans final.toPasses
  have passes : c₁.Passes hi d := (first.on onward).trans behind
  have upto := took.upto hstart
  have := upto.start
  have := took.sound.order
  have := first.stop_le
  have := behind.stop_le
  exact ⟨took.toPasses.trans passes, .upto final.sound (upto.on (passes.keeps took.sound)) le rfl
    inClass nofun (List.forall_mem_singleton.mpr (fills.mono (by omega) (by omega)))⟩

theorem yields_declarationAt (around : Enclosing) (access : Access) (isDefault : Bool)
    (h : c.Sound hi) (upto : start.Upto c) (le : lo ≤ start.start) :
    Yields (declarationAt inner around start access isDefault) c fun stmt d =>
      c.Passes hi d ∧ stmt.Sits around lo d.previous.stop := by
  have hstart := upto.at h
  refine yields_kind ?_
  split
  · exact yields_procedureFrom hinner around access h hstart le
  · exact yields_procedureFrom hinner around access h hstart le
  · exact yields_propertyFrom hinner around access isDefault h hstart le
  · refine .ite (fun _ => yields_expected _) fun _ => ?_
    exact .ite (fun _ => yields_constantGroup h hstart le)
      fun _ => yields_variableGroup access h upto le

theorem reads_modifiedDeclaration (around : Enclosing) :
    ReadsIn hi (modifiedDeclaration inner around) (Stmt.Sits around) := by
  intro c h
  refine yields_span ?_
  have behind (access : Access) (isDefault : Bool) {d e : Cursor} (took : Took hi c d)
      (keeps : d.Keeps hi e) :
      Yields (declarationAt inner around c.span access isDefault) e fun stmt e =>
        c.Passes hi e ∧ stmt.Sits around c.previous.stop e.previous.stop :=
    (yields_declarationAt hinner around access isDefault keeps.sound
      ((took.upto (Span.at_span c)).on keeps) h.span.start).mono
        fun _ _ ⟨passes, sits⟩ => ⟨(took.toPasses.on keeps).trans passes, sits⟩
  have modified (access : Access) {d : Cursor} (took : Took hi c d) :
      Yields (declarationBehind inner around c.span access) d fun stmt e =>
        c.Passes hi e ∧ stmt.Sits around c.previous.stop e.previous.stop :=
    yields_accept took.sound isEnd_of_isWord
      (fun _ word => behind access true took (word.keeps took.sound))
      (behind access false took took.sound.keeps)
  refine yields_accept h isEnd_of_isKeyword (fun _ word => modified .isPrivate word) ?_
  exact (yields_requireKeyword .publicWord h).bind fun _ _ ⟨word, _⟩ => modified .isPublic word

/-! ## Classes -/

theorem yields_members (around : Enclosing) (bound : Nat) : ∀ {c : Cursor}, c.Sound hi →
    Yields (members (inner around) bound) c fun body d =>
      c.Keeps hi d ∧ InRow (Stmt.Sits around) c.previous.stop d.previous.stop body := by
  induction bound with
  | zero => exact fun h => yields_pure ⟨h.keeps, .nil (Nat.le_refl _)⟩
  | succ bound ih =>
    intro c h
    refine (yields_dropSeparators h).bind fun _ c₁ dropped => ?_
    refine yields_kind (.ite (fun _ => yields_pure ⟨dropped, .nil dropped.stop⟩) fun _ => ?_)
    refine .ite (fun declares => ?_) fun _ => fun _ _ failed => nomatch failed
    exact yields_further h dropped (hinner around dropped.sound fun _ => declares) ih

theorem reads_classStatement (outside : around.inClass = false) :
    ReadsIn hi (classStatement inner around) (Stmt.Sits around) := by
  intro c h
  refine (yields_outsideProcedure around).bind fun _ _ ⟨same, outside'⟩ => ?_
  obtain rfl := same
  refine (yields_requireKeyword .classWord h).bind fun _ c₁ ⟨took, hstart⟩ => ?_
  obtain rfl := hstart
  refine (yields_identifier took.sound).bind fun name c₂ named => yields_remaining ?_
  refine (yields_members hinner _ _ named.sound).bind fun body c₃ ⟨keeps, row⟩ => ?_
  refine (yields_requireKeyword .endWord keeps.sound).bind fun _ c₄ ⟨close, _⟩ => ?_
  refine (yields_requireKeyword .classWord close.sound).bind fun _ d ⟨final, _⟩ =>
    yields_previous (yields_pure ?_)
  have behind := close.toPasses.trans final.toPasses
  have := took.sound.order
  have := named.stop_le
  have := behind.stop_le
  exact took.headed (((named.toPasses.on keeps).trans behind).keeps took.sound) rfl
    ⟨outside, outside'⟩ nofun
    (List.forall_mem_singleton.mpr ((Stmt.fill_of_row row).mono (by omega) (by omega)))

/-! ## One statement -/

theorem yields_statementWith (around : Enclosing) (h : c.Sound hi)
    (member : around.inClass = true → c.kind.startsMember = true) :
    Yields (statementWith inner around) c fun stmt d =>
      c.Passes hi d ∧ stmt.Sits around c.previous.stop d.previous.stop := by
  have outside (other : c.kind.startsMember = false) : around.inClass = false :=
    Bool.eq_false_iff.mpr fun inClass => nomatch other.symm.trans (member inClass)
  refine yields_get ?_
  cases hk : c.kind with
  | text | includeFile | openPrint =>
    exact yields_pageContent (outside (hk ▸ rfl)) h (hk ▸ rfl)
  | ident name =>
    have outside := outside (hk ▸ rfl)
    refine .ite (fun _ => reads_onErrorStatement outside h) fun _ => ?_
    exact .ite (fun _ => reads_markedAssignment outside h (hk ▸ rfl))
      fun _ => reads_assignmentOrCall outside h
  | symbol sign =>
    cases sign with
    | dot => exact reads_assignmentOrCall (outside (hk ▸ rfl)) h
    | _ => exact yields_expected _
  | keyword word =>
    cases word with
    | dimWord =>
      refine (yields_advance h (hk ▸ rfl)).bind fun _ c₁ ⟨took, hstart⟩ => ?_
      obtain rfl := hstart
      exact (yields_variableGroup .isPublic took.sound (Span.upto_previous c₁) took.le).mono
        fun _ _ ⟨passes, sits⟩ => ⟨took.toPasses.trans passes, sits⟩
    | publicWord | privateWord => exact reads_modifiedDeclaration hinner around h
    | constWord => exact yields_span (yields_constantGroup h (Span.at_span c) h.span.start)
    | reDimWord => exact reads_redimStatement (outside (hk ▸ rfl)) h
    | functionWord | subWord =>
      refine yields_span ?_
      exact yields_procedureFrom hinner around .isPublic h (Span.at_span c) h.span.start
    | propertyWord =>
      refine yields_span ?_
      exact yields_propertyFrom hinner around .isPublic false h (Span.at_span c) h.span.start
    | classWord => exact reads_classStatement hinner (outside (hk ▸ rfl)) h
    | ifWord =>
      have outside := outside (hk ▸ rfl)
      exact reads_ifStatement outside (hinner.outside outside) h
    | whileWord =>
      have outside := outside (hk ▸ rfl)
      exact reads_whileStatement outside (hinner.outside outside) h
    | doWord =>
      have outside := outside (hk ▸ rfl)
      exact reads_doStatement outside (hinner.outside outside) h
    | forWord =>
      have outside := outside (hk ▸ rfl)
      exact reads_forStatement outside (hinner.outside outside) h
    | selectWord =>
      have outside := outside (hk ▸ rfl)
      exact reads_selectStatement outside (hinner.outside outside) h
    | withWord =>
      have outside := outside (hk ▸ rfl)
      exact reads_withStatement outside (hinner.outside outside) h
    | exitWord => exact reads_exitStatement (outside (hk ▸ rfl)) h
    | optionWord => exact reads_optionStatement (outside (hk ▸ rfl)) h
    | callWord => exact reads_callStatement (outside (hk ▸ rfl)) h (hk ▸ rfl)
    | setWord => exact reads_markedAssignment (outside (hk ▸ rfl)) h (hk ▸ rfl)
    | _ => exact yields_expected _
  | _ => exact yields_expected _

end Parse

/-! ## Programs -/

/-- Every statement sits where it was read, and has the form for what encloses it. -/
theorem Stmt.reads_parseAt {hi : Nat} : ∀ bound, Parse.ReadsStatements hi (parseAt bound)
  | 0, _, _, _, _ => Parse.yields_failAt _
  | bound + 1, around, _, h, member => Parse.yields_statementWith (reads_parseAt bound) around h member

/-- The statements of a program sit one behind another. -/
theorem Parse.yields_program {hi : Nat} {c : Cursor} (h : c.Sound hi) :
    Yields program c fun body d =>
      c.Keeps hi d ∧ InRow (Stmt.Sits ⟨false, false⟩) c.previous.stop d.previous.stop body := by
  have body (bound : Nat) : Yields (block (Stmt.parseAt bound ⟨false, false⟩) fun _ => false) c
      fun body d => c.Keeps hi d ∧
        InRow (Stmt.Sits ⟨false, false⟩) c.previous.stop d.previous.stop body :=
    yields_remaining (yields_statements ((Stmt.reads_parseAt bound).outside rfl) _ _ h)
  refine yields_remaining ((body _).bind fun _ _ read => ?_)
  exact yields_kind (.ite (fun _ => yields_pure read) fun _ => yields_expected _)

end PageScript
