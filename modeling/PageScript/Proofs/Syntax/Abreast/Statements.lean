import PageScript.Proofs.Syntax.Abreast.Blocks

/-!
# Proofs/Syntax/Abreast/Statements — whole statements side by side

Procedures, properties and classes, and the choice of a reader by the first token.  From cursors
abreast statements are read that look alike, or reading fails alike (`Stmt.abreast_parseAt`), and so
it is for whole programs (`Parse.abreast_program`).
-/

namespace PageScript

variable {V : Sight} {extra n bound bound' : Nat} {c d : Cursor}
  {inner inner' : Enclosing → Parse Stmt} {around : Enclosing}

namespace Parse

/-- Two readers of statements are abreast, whatever encloses the statement. -/
abbrev StatementsAbreast (V : Sight) (extra n : Nat) (inner inner' : Enclosing → Parse Stmt) : Prop :=
  ∀ around, AbreastWithin V extra n (Stmt.SeenAs V) (inner around) (inner' around)

/-! ## Procedures and properties -/

theorem abreast_namedParameter (byRef : Bool) (h : c.Abreast V extra d) :
    Abreast V extra 1 Eq (namedParameter byRef) (namedParameter byRef) c d := by
  refine (abreast_identifier h).bindSame (j := 0) fun name c₁ d₁ onward => abreast_get ?_
  rw [← onward.abreast.kind_eq]
  cases hopen : c₁.kind.isSymbol .lparen with
  | false => exact abreast_pure onward.abreast rfl
  | true =>
    have proper := isProper_of_isSymbol _ hopen
    rw [← onward.abreast.nextKind_eq (TokenKind.isEnd_of_isProper proper)]
    cases hclose : c₁.nextKind.isSymbol .rparen with
    | false => exact abreast_pure onward.abreast rfl
    | true =>
      have passed := Cursor.Onward.advance onward.abreast proper
      have proper' : c₁.advance.kind.isProper = true := by
        rw [Cursor.kind_advance (TokenKind.isEnd_of_isProper proper)]
        exact isProper_of_isSymbol _ hclose
      exact .done rfl ((passed.trans (.advance passed.abreast proper')).mono (Nat.zero_le _))

theorem abreast_parameter (h : c.Abreast V extra d) :
    Abreast V extra 1 Eq parameter parameter c d := by
  refine abreast_accept h isProper_of_isKeyword
    (fun _ _ _ onward => (abreast_namedParameter true onward.abreast).loosen) fun _ => ?_
  exact abreast_accept h isProper_of_isKeyword
    (fun _ _ _ onward => (abreast_namedParameter false onward.abreast).loosen)
    fun _ => abreast_namedParameter false h

theorem abreast_parameters (h : c.Abreast V extra d) :
    Abreast V extra 0 Eq parameters parameters c d := by
  refine abreast_accept h isProper_of_isSymbol (fun _ _ _ onward => ?_) fun _ => abreast_pure h rfl
  refine abreast_accept onward.abreast isProper_of_isSymbol
    (fun _ _ _ onward => abreast_pure onward.abreast rfl) fun _ => ?_
  refine ((abreast_commaList_eq onward.abreast abreast_parameter).bindSame (j := 0)
    fun found _ _ onward => ?_).loosen
  exact ((abreast_requireSymbol .rparen onward.abreast).bind (j := 0) fun _ _ _ _ _ onward =>
    abreast_pure onward.abreast rfl).loosen

theorem abreast_outsideProcedure (around : Enclosing) (h : c.Abreast V extra d) {word : Keyword}
    (hk : c.kind = .keyword word) :
    Abreast V extra 0 Eq (outsideProcedure around) (outsideProcedure around) c d := by
  refine .ite (fun _ => abreast_failAt h ?_ (h.stopsAt_nestedDeclaration hk _)) fun _ =>
    abreast_pure h rfl
  rw [h.kind_eq]

theorem abreast_namedProcedure {s s' : Span} (hs : s.SeenAs V s') (isSub : Bool) (access : Access)
    (hinner : StatementsAbreast V extra n inner inner') (h : c.Abreast V extra d)
    (hn : c.rest.length ≤ n + 1) :
    Abreast V extra 1 (Stmt.SeenAs V) (namedProcedure inner isSub s access)
      (namedProcedure inner' isSub s' access) c d := by
  refine (abreast_identifier h).bindSame (j := 0) fun name c₁ d₁ onward₁ => ?_
  refine (abreast_parameters onward₁.abreast).bindSame (j := 0) fun params c₂ d₂ onward₂ => ?_
  refine abreast_bodyThen [.endWord] .endWord (hinner ⟨false, true⟩) onward₂.abreast
    (length_le_of_onward hn (by decide) (onward₁.trans onward₂)) fun body body' _ _ _ _ same onward => ?_
  refine ((abreast_requireKeyword _ onward.abreast).bind (j := 0)
    fun _ _ _ _ _ onward => ?_).loosen
  refine abreast_previous onward.abreast fun _ _ hp => abreast_pure onward.abreast ?_
  rw [Stmt.SeenAs, Stmt.seen, Stmt.seen, Procedure.seen, Procedure.seen, V.merge hs hp, same]

theorem abreast_procedureFrom {s s' : Span} (hs : s.SeenAs V s') (around : Enclosing)
    (access : Access) (hinner : StatementsAbreast V extra n inner inner') (h : c.Abreast V extra d)
    {word : Keyword} (hk : c.kind = .keyword word) (hn : c.rest.length ≤ n + 1) :
    Abreast V extra 1 (Stmt.SeenAs V) (procedureFrom inner around s access)
      (procedureFrom inner' around s' access) c d := by
  refine (abreast_outsideProcedure around h hk).bindSame (j := 1) fun _ c₁ d₁ onward₁ => ?_
  have := onward₁.taken.length_le
  have named (isSub : Bool) {c' d' : Cursor} {i : Nat}
      (onward : Cursor.Onward V extra i c₁ d₁ c' d') : Abreast V extra 1 (Stmt.SeenAs V)
        (namedProcedure inner isSub s access) (namedProcedure inner' isSub s' access) c' d' := by
    have := onward.taken.length_le
    exact abreast_namedProcedure hs isSub access hinner onward.abreast (by omega)
  refine abreast_accept onward₁.abreast isProper_of_isKeyword
    (fun _ _ _ onward => (named true onward).loosen) fun _ => ?_
  exact (abreast_requireKeyword .functionWord onward₁.abreast).bind (j := 0)
    fun _ _ _ _ _ onward => (named false onward).loosen

theorem abreast_propertyForm (h : c.Abreast V extra d) :
    Abreast V extra 1 Eq propertyForm propertyForm c d := by
  have form (found : PropertyForm) {c d : Cursor} (h : c.Abreast V extra d) :
      Abreast V extra 0 Eq (pure found) (pure found) c d := abreast_pure h rfl
  refine abreast_accept h isProper_of_isKeyword (fun _ _ _ onward => form .set onward.abreast)
    fun _ => ?_
  refine abreast_accept h isProper_of_isWord (fun _ _ _ onward => form .get onward.abreast)
    fun _ => ?_
  exact abreast_accept h isProper_of_isWord (fun _ _ _ onward => form .assign onward.abreast)
    fun _ => abreast_expected h _

theorem abreast_propertyFrom {s s' : Span} (hs : s.SeenAs V s') (around : Enclosing)
    (access : Access) (isDefault : Bool) (hinner : StatementsAbreast V extra n inner inner')
    (h : c.Abreast V extra d) (hk : c.kind = .keyword .propertyWord) (hn : c.rest.length ≤ n + 1) :
    Abreast V extra 1 (Stmt.SeenAs V) (propertyFrom inner around s access isDefault)
      (propertyFrom inner' around s' access isDefault) c d := by
  refine .ite (fun _ => abreast_failAt h rfl (h.stopsAt_propertyOutsideClass hk)) fun _ => ?_
  refine (abreast_requireKeyword .propertyWord h).bind (j := 0) fun _ _ c₁ d₁ _ onward₁ => ?_
  refine ((abreast_propertyForm onward₁.abreast).bindSame (j := 0)
    fun form c₂ d₂ onward₂ => ?_).loosen
  refine ((abreast_identifier onward₂.abreast).bindSame (j := 0)
    fun name c₃ d₃ onward₃ => ?_).loosen
  refine (abreast_parameters onward₃.abreast).bindSame (j := 0) fun params c₄ d₄ onward₄ => ?_
  have onward := ((onward₁.trans onward₂).trans onward₃).trans onward₄
  refine abreast_bodyThen [.endWord] .endWord (hinner ⟨false, true⟩) onward₄.abreast
    (length_le_of_onward hn (by decide) onward) fun body body' _ _ _ _ same onward => ?_
  refine ((abreast_requireKeyword .propertyWord onward.abreast).bind (j := 0)
    fun _ _ _ _ _ onward => ?_).loosen
  refine abreast_previous onward.abreast fun _ _ hp => abreast_pure onward.abreast ?_
  rw [Stmt.SeenAs, Stmt.seen, Stmt.seen, Procedure.seen, Procedure.seen, V.merge hs hp, same]

theorem abreast_declarationBehind {s s' : Span} (hs : s.SeenAs V s') (around : Enclosing)
    (access : Access) (hinner : StatementsAbreast V extra n inner inner') (h : c.Abreast V extra d)
    (hn : c.rest.length ≤ n + 1) :
    Abreast V extra 1 (Stmt.SeenAs V) (declarationBehind inner around s access)
      (declarationBehind inner' around s' access) c d := by
  have declared (isDefault : Bool) {c d : Cursor} (h : c.Abreast V extra d)
      (hn : c.rest.length ≤ n + 1) : Abreast V extra 1 (Stmt.SeenAs V)
        (declarationAt inner around s access isDefault)
        (declarationAt inner' around s' access isDefault) c d := by
    refine abreast_kind h fun k hk => ?_
    split
    · exact abreast_procedureFrom hs around access hinner h hk hn
    · exact abreast_procedureFrom hs around access hinner h hk hn
    · exact abreast_propertyFrom hs around access isDefault hinner h hk hn
    · refine .ite (fun _ => abreast_expected h _) fun _ => ?_
      exact .ite (fun _ => abreast_constantGroup hs h) fun _ => abreast_variableGroup hs access h
  refine abreast_accept h isProper_of_isWord (fun _ _ _ onward => ?_) fun _ => declared false h hn
  have := onward.taken.length_le
  exact (declared true onward.abreast (by omega)).loosen

theorem abreast_modifiedDeclaration (around : Enclosing)
    (hinner : StatementsAbreast V extra n inner inner') (h : c.Abreast V extra d)
    (hn : c.rest.length ≤ n + 1) :
    Abreast V extra 1 (Stmt.SeenAs V) (modifiedDeclaration inner around)
      (modifiedDeclaration inner' around) c d := by
  refine abreast_span h fun s s' hs => ?_
  have modified (access : Access) {c' d' : Cursor} (onward : Cursor.Onward V extra 1 c d c' d') :
      Abreast V extra 0 (Stmt.SeenAs V) (declarationBehind inner around s access)
        (declarationBehind inner' around s' access) c' d' := by
    have := onward.taken.length_le
    exact (abreast_declarationBehind hs around access hinner onward.abreast (by omega)).loosen
  refine abreast_accept h isProper_of_isKeyword
    (fun _ _ _ onward => modified .isPrivate onward) fun _ => ?_
  exact (abreast_requireKeyword .publicWord h).bind fun _ _ _ _ _ onward =>
    modified .isPublic onward

/-! ## Classes -/

theorem abreast_members {st st' : Parse Stmt} (hinner : AbreastWithin V extra n (Stmt.SeenAs V) st st') :
    ∀ {bound bound' : Nat} {c d : Cursor}, c.Abreast V extra d → c.rest.length ≤ n →
      c.rest.length ≤ bound → c.rest.length ≤ bound' →
        Abreast V extra 0 (Stmt.AllSeenAs V) (members st bound) (members st' bound') c d := by
  intro bound
  induction bound with
  | zero =>
    intro _ _ _ h _ hbound
    exact absurd h.tokens.length_pos (Nat.not_lt.mpr hbound)
  | succ bound ih =>
    intro bound' c d h hn hbound hbound'
    obtain ⟨bound', rfl⟩ := exists_succ_of_abreast h hbound'
    refine (abreast_dropSeparators h).bindSame (j := 0) fun _ c₁ d₁ onward => ?_
    refine abreast_kind onward.abreast fun k _ => .ite (fun _ => abreast_pure onward.abreast rfl)
      fun _ => ?_
    have := onward.taken.length_le
    refine .ite (fun _ => ?_) fun _ => .failed
      (congrArg (SyntaxError.Cause.expected "class member") onward.abreast.kind_eq)
      onward.abreast.span_eq (onward.abreast.stopsAt_expected _)
    refine ((hinner onward.abreast (by omega)).bind (j := 0)
      fun first first' c₂ d₂ same onward => ?_).loosen
    have := onward.taken.length_le
    refine (abreast_statementEnd onward.abreast).bindSame (j := 0) fun _ c₃ d₃ onward => ?_
    have := onward.taken.length_le
    exact (ih onward.abreast (by omega) (by omega) (by omega)).bind fun _ _ _ _ further onward =>
      abreast_pure onward.abreast (seenAll_cons same further)

theorem abreast_classStatement (around : Enclosing)
    (hinner : StatementsAbreast V extra n inner inner') (h : c.Abreast V extra d)
    (hk : c.kind = .keyword .classWord) (hn : c.rest.length ≤ n + 1) :
    Abreast V extra 1 (Stmt.SeenAs V) (classStatement inner around) (classStatement inner' around)
      c d := by
  refine (abreast_outsideProcedure around h hk).bindSame (j := 1) fun _ c₁ d₁ onward₁ => ?_
  refine (abreast_requireKeyword .classWord onward₁.abreast).bind (j := 0)
    fun s s' c₂ d₂ hs onward₂ => ?_
  refine ((abreast_identifier onward₂.abreast).bindSame (j := 0)
    fun name c₃ d₃ onward₃ => ?_).loosen
  have hn := length_le_of_onward hn (by decide) ((onward₁.trans onward₂).trans onward₃)
  refine abreast_remaining onward₃.abreast fun m m' hm hm' => ?_
  refine (abreast_members (hinner _) onward₃.abreast hn hm hm').bind (j := 0)
    fun body body' _ _ same onward => ?_
  refine ((abreast_requireKeyword .endWord onward.abreast).bind (j := 0)
    fun _ _ _ _ _ onward => ?_).loosen
  refine ((abreast_requireKeyword .classWord onward.abreast).bind (j := 0)
    fun _ _ _ _ _ onward => ?_).loosen
  refine abreast_previous onward.abreast fun _ _ hp => abreast_pure onward.abreast ?_
  rw [Stmt.SeenAs, Stmt.seen, Stmt.seen, V.merge hs hp, same]

/-! ## One statement -/

theorem abreast_statementWith (around : Enclosing)
    (hinner : StatementsAbreast V extra n inner inner') (h : c.Abreast V extra d)
    (hn : c.rest.length ≤ n + 1) :
    Abreast V extra 1 (Stmt.SeenAs V) (statementWith inner around) (statementWith inner' around)
      c d := by
  refine abreast_get ?_
  rw [← h.kind_eq]
  cases hk : c.kind with
  | text | includeFile | openPrint => exact abreast_pageContent h (hk ▸ rfl)
  | ident name =>
    dsimp only
    rw [← h.nextKind_eq (hk ▸ rfl)]
    refine .ite (fun _ => abreast_onErrorStatement h) fun _ => ?_
    exact .ite (fun _ => abreast_markedAssignment h (hk ▸ rfl)) fun _ => abreast_assignmentOrCall h
  | symbol sign =>
    cases sign with
    | dot => exact abreast_assignmentOrCall h
    | _ => exact abreast_expected h _
  | keyword word =>
    cases word with
    | dimWord =>
      exact (abreast_advance h (hk ▸ rfl)).bind (j := 0) fun _ _ _ _ hs onward =>
        (abreast_variableGroup hs .isPublic onward.abreast).loosen
    | publicWord | privateWord => exact abreast_modifiedDeclaration around hinner h hn
    | constWord => exact abreast_span h fun _ _ hs => abreast_constantGroup hs h
    | reDimWord => exact abreast_redimStatement h
    | functionWord | subWord =>
      exact abreast_span h fun _ _ hs => abreast_procedureFrom hs around .isPublic hinner h hk hn
    | propertyWord =>
      exact abreast_span h fun _ _ hs => abreast_propertyFrom hs around .isPublic false hinner h hk hn
    | classWord => exact abreast_classStatement around hinner h hk hn
    | ifWord => exact abreast_ifStatement (hinner around) h hn
    | whileWord => exact abreast_whileStatement (hinner around) h hn
    | doWord => exact abreast_doStatement (hinner around) h hn
    | forWord => exact abreast_forStatement (hinner around) h hn
    | selectWord => exact abreast_selectStatement (hinner around) h hn
    | withWord => exact abreast_withStatement (hinner around) h hn
    | exitWord => exact abreast_exitStatement h
    | optionWord => exact abreast_optionStatement h
    | callWord => exact abreast_callStatement h (hk ▸ rfl)
    | setWord => exact abreast_markedAssignment h (hk ▸ rfl)
    | _ => exact abreast_expected h _
  | _ => exact abreast_expected h _

end Parse

theorem Stmt.abreast_parseAt : ∀ {bound bound' : Nat} (around : Enclosing) {c d : Cursor},
    c.Abreast V extra d → c.rest.length ≤ bound → c.rest.length ≤ bound' →
      Parse.Abreast V extra 1 (SeenAs V) (parseAt bound around) (parseAt bound' around) c d := by
  intro bound
  induction bound with
  | zero =>
    intro _ _ _ _ h hbound
    exact absurd h.tokens.length_pos (Nat.not_lt.mpr hbound)
  | succ bound ih =>
    intro bound' around c d h hbound hbound'
    obtain ⟨bound', rfl⟩ := Parse.exists_succ_of_abreast h hbound'
    have inside : Parse.StatementsAbreast V extra (c.rest.length - 1) (parseAt bound)
        (parseAt bound') :=
      fun around _ _ h hn => ih around h (by omega) (by omega)
    exact Parse.abreast_statementWith around inside h (by omega)

/-- The first reader of a program has reached the end of the page when it is done. -/
theorem Parse.abreast_program (h : c.Abreast V extra d) :
    Parse.Abreast V extra 0 (Stmt.AllSeenAs V) Parse.program Parse.program c d := by
  refine abreast_remaining h fun m m' hm hm' => ?_
  have inside : AbreastWithin V extra c.rest.length (Stmt.SeenAs V)
      (Stmt.parseAt m ⟨false, false⟩) (Stmt.parseAt m' ⟨false, false⟩) :=
    fun h hn => Stmt.abreast_parseAt _ h (by omega) (by omega)
  refine (abreast_block _ inside h (Nat.le_refl _)).bind (j := 0) fun _ _ _ _ same onward => ?_
  exact abreast_kind onward.abreast fun k _ => .ite (fun _ => abreast_pure onward.abreast same)
    fun _ => abreast_expected onward.abreast _

end PageScript
