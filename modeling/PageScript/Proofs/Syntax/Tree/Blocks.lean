import PageScript.Proofs.Syntax.Abreast.Blocks
import PageScript.Proofs.Syntax.Tree.Simple

/-!
# Proofs/Syntax/Tree/Blocks — blocks, branches and loops

A reader of single statements makes readers of lists of statements, which sit one behind another
between the tokens that they were read from, and of the statements that have such lists for bodies.
-/

namespace PageScript

namespace Parse

variable {around : Enclosing} {hi bound : Nat} {c d e : Cursor} {statement : Parse Stmt}

/-! ## Lists of statements -/

/-- A statement and the ones behind it, where separators may have been taken before. -/
theorem yields_further {rest : Parse (List Stmt)} (h : c.Sound hi) (dropped : c.Keeps hi d)
    (first : Yields statement d fun stmt e =>
      d.Passes hi e ∧ stmt.Sits around d.previous.stop e.previous.stop)
    (further : ∀ {e : Cursor}, e.Sound hi → Yields rest e fun body f =>
      e.Keeps hi f ∧ InRow (Stmt.Sits around) e.previous.stop f.previous.stop body) :
    Yields (statement >>= fun first => statementEnd >>= fun _ => rest >>= fun further =>
      pure (first :: further)) d fun body e =>
        c.Keeps hi e ∧ InRow (Stmt.Sits around) c.previous.stop e.previous.stop body := by
  refine first.bind fun stmt e ⟨passes, sits⟩ => yields_statementEnd.bind fun _ _ same => ?_
  obtain rfl := same
  refine (further passes.sound).bind fun body f ⟨keeps, row⟩ => yields_pure ?_
  exact ⟨((dropped.passes passes).on keeps).keeps h,
    .cons (sits.mono dropped.stop (Nat.le_refl _)) (Nat.le_trans dropped.stop passes.stop_le)
      (Nat.le_refl _) row⟩

theorem yields_statements (hstatement : ReadsIn hi statement (Stmt.Sits around))
    (stop : TokenKind → Bool) : ∀ (bound : Nat) {c : Cursor}, c.Sound hi →
      Yields (statements statement stop bound) c fun body d =>
        c.Keeps hi d ∧ InRow (Stmt.Sits around) c.previous.stop d.previous.stop body := by
  intro bound
  induction bound with
  | zero => exact fun h => yields_pure ⟨h.keeps, .nil (Nat.le_refl _)⟩
  | succ bound ih =>
    intro c h
    refine (yields_dropSeparators h).bind fun _ c₁ dropped => ?_
    exact yields_kind (.ite (fun _ => yields_pure ⟨dropped, .nil dropped.stop⟩)
      fun _ => yields_further h dropped (hstatement dropped.sound) ih)

theorem yields_blockUntil (words : List Keyword)
    (hstatement : ReadsIn hi statement (Stmt.Sits around)) (h : c.Sound hi) :
    Yields (blockUntil statement words) c fun body d =>
      c.Keeps hi d ∧ Stmt.Fill around c.previous.stop d.previous.stop body :=
  yields_remaining ((yields_statements hstatement _ _ h).mono fun _ _ ⟨keeps, row⟩ =>
    ⟨keeps, Stmt.fill_of_row row⟩)

theorem reads_lineStatements (hstatement : ReadsIn hi statement (Stmt.Sits around)) :
    ∀ (bound : Nat), ReadsIn hi (lineStatements statement bound) (InRow (Stmt.Sits around)) := by
  intro bound
  induction bound with
  | zero => exact fun h => (hstatement h).bind fun _ _ ⟨passes, sits⟩ =>
      yields_pure ⟨passes, .single sits passes.stop_le⟩
  | succ bound ih =>
    intro c h
    refine (hstatement h).bind fun first c₁ ⟨passes, sits⟩ => ?_
    have single {d : Cursor} (le : c₁.previous.stop ≤ d.previous.stop) :
        InRow (Stmt.Sits around) c.previous.stop d.previous.stop [first] :=
      .cons sits passes.stop_le (Nat.le_refl _) (.nil le)
    refine yields_accept passes.sound isEnd_of_isSymbol (fun d colon => ?_)
      (yields_pure ⟨passes, single (Nat.le_refl _)⟩)
    refine yields_kind (.ite (fun _ => ?_) fun _ => ?_)
    · exact yields_pure ⟨passes.trans colon.toPasses, single colon.stop_le⟩
    · exact (ih colon.sound).bind fun rest d ⟨more, row⟩ => yields_pure
        ⟨(passes.trans colon.toPasses).trans more, .cons sits passes.stop_le colon.stop_le row⟩

theorem reads_line (hstatement : ReadsIn hi statement (Stmt.Sits around)) :
    ReadsIn hi (line statement) (Stmt.Fill around) :=
  fun h => yields_remaining ((reads_lineStatements hstatement _ h).mono fun _ _ ⟨passes, row⟩ =>
    ⟨passes, Stmt.fill_of_row row⟩)

/-! ## Page content -/

end Parse

/-- What is written lies in the bytes of the statement that writes it. -/
theorem Stmt.Lies.writing {lo hi : Nat} {value : Expr} {s : Span} (here : s.Lies lo hi)
    (h : value.Lies s.start s.stop) : (Parse.writing value s).Lies lo hi := by
  have whole : s.Lies s.start s.stop := ⟨Nat.le_refl _, here.order, Nat.le_refl _⟩
  refine .intro here (List.forall_mem_singleton.mpr ?_) nofun nofun
  exact .call whole (.member whole (.leaf whole rfl)) (List.forall_mem_singleton.mpr h)

namespace Parse

variable {around : Enclosing} {hi bound : Nat} {c d e : Cursor} {statement : Parse Stmt}

/-- Pieces in a row.  Where page content stands there is one at least, and they start at the cursor. -/
theorem yields_content : ∀ (bound : Nat) {c : Cursor}, c.Sound hi →
    Yields (content bound) c fun body d => c.Keeps hi d ∧
      InRow (Stmt.LiesAs Stmt.IsPiece) c.previous.stop d.previous.stop body ∧
        (0 < bound → c.kind.isMarkup = true → c.span.Upto d ∧
          InRow (Stmt.LiesAs Stmt.IsPiece) c.span.start d.previous.stop body ∧ body ≠ []) := by
  intro bound
  induction bound with
  | zero => exact fun h => yields_pure ⟨h.keeps, .nil (Nat.le_refl _), nofun⟩
  | succ bound ih =>
    intro c h
    have further {first : Stmt} {d : Cursor} (sound : d.Sound hi) (upto : c.span.Upto d)
        (lies : first.Lies c.span.start d.previous.stop) (piece : first.IsPiece) :
        Yields (content bound >>= fun rest => pure (first :: rest)) d fun body d => c.Keeps hi d ∧
          InRow (Stmt.LiesAs Stmt.IsPiece) c.previous.stop d.previous.stop body ∧
            (0 < bound + 1 → c.kind.isMarkup = true → c.span.Upto d ∧
              InRow (Stmt.LiesAs Stmt.IsPiece) c.span.start d.previous.stop body ∧ body ≠ []) := by
      refine (ih sound).bind fun rest e ⟨keeps, row, _⟩ => yields_pure ?_
      have first_le := Nat.le_trans lies.here.start (Nat.le_trans lies.here.order lies.here.stop)
      have row : InRow (Stmt.LiesAs Stmt.IsPiece) c.span.start e.previous.stop (first :: rest) :=
        .cons ⟨lies, piece⟩ first_le (Nat.le_refl _) row
      exact ⟨((upto.passes h sound).on keeps).keeps h, row.widen h.span.start Stmt.LiesAs.mono,
        fun _ _ => ⟨upto.on keeps, row, List.cons_ne_nil _ _⟩⟩
    refine yields_span (yields_kind ?_)
    cases hk : c.kind with
    | text value =>
      refine (yields_advance h (hk ▸ rfl)).bind fun _ d ⟨took, _⟩ => ?_
      have here : c.span.Lies c.span.start d.previous.stop :=
        ⟨Nat.le_refl _, took.span.order, took.span.stop⟩
      exact hk ▸ further took.sound (took.upto (Span.at_span c))
        (.writing here (.leaf ⟨here.start, here.order, Nat.le_refl _⟩ rfl)) (.writing _ _)
    | includeFile path isVirtual =>
      refine (yields_advance h (hk ▸ rfl)).bind fun _ d ⟨took, _⟩ => ?_
      exact hk ▸ further took.sound (took.upto (Span.at_span c))
        (.leaf ⟨Nat.le_refl _, took.span.order, took.span.stop⟩ rfl rfl) (.directive _ _)
    | openPrint =>
      refine (yields_advance h (hk ▸ rfl)).bind fun _ c₁ ⟨took, _⟩ => ?_
      refine (Expr.reads_parse took.sound).bind fun value c₂ ⟨read, lies⟩ => ?_
      -- The delimiter may be missing at the end of the page.
      have behind (closed : Bool) {d : Cursor} (keeps : c₂.Keeps hi d) :
          Yields (kind >>= fun found => if (!closed && !found.isEnd) = true then expected "`%>`" else
            previous >>= fun p => content bound >>= fun rest =>
              pure (writing value (c.span.merge p) :: rest)) d fun body d => c.Keeps hi d ∧
                InRow (Stmt.LiesAs Stmt.IsPiece) c.previous.stop d.previous.stop body ∧
                  (0 < bound + 1 → c.kind.isMarkup = true → c.span.Upto d ∧
                    InRow (Stmt.LiesAs Stmt.IsPiece) c.span.start d.previous.stop body ∧
                      body ≠ []) := by
        have first := took.upto (Span.at_span c)
        have upto := first.on ((read.on keeps).keeps took.sound)
        refine yields_kind (.ite (fun _ => yields_expected _) fun _ => yields_previous ?_)
        refine further keeps.sound upto
          (.writing (upto.lies keeps.sound (Nat.le_refl _)) ?_) (.writing _ _)
        rw [upto.merge]
        exact lies.mono (Nat.le_trans first.start took.sound.order) keeps.stop
      refine hk ▸ yields_accept read.sound (fun found closes => ?_)
        (fun _ close => behind true (close.keeps read.sound)) (behind false read.sound.keeps)
      cases found with
      | closeCode => rfl
      | _ => nomatch closes
    | _ => exact yields_pure ⟨h.keeps, .nil (Nat.le_refl _), fun _ => nofun⟩

theorem yields_pageContent (outside : around.inClass = false) (h : c.Sound hi)
    (markup : c.kind.isMarkup = true) : Yields pageContent c fun stmt d =>
      c.Passes hi d ∧ stmt.Sits around c.previous.stop d.previous.stop := by
  have some_token : 0 < c.rest.length := by
    obtain ⟨_ | _, _⟩ := c
    · nomatch markup
    · exact Nat.succ_pos _
  refine yields_span (yields_remaining ?_)
  refine (yields_content _ h).bind fun body d ⟨keeps, _, found⟩ => yields_previous (yields_pure ?_)
  obtain ⟨upto, row, some_piece⟩ := found some_token markup
  refine ⟨upto.passes h keeps.sound, .group (upto.lies keeps.sound h.span.start)
    (.content outside some_piece fun piece mem => ?_) ?_⟩
  · exact (row.forall_mem Stmt.LiesAs.mono piece mem).holds
  · rw [upto.merge]
    exact row.imp Stmt.LiesAs.lies

/-! ## Branches and loops -/

variable (outside : around.inClass = false) (hstatement : ReadsIn hi statement (Stmt.Sits around))
include outside hstatement

/-- The bodies of a branch.  An `elseif` is a branch of its own, from its word on. -/
theorem yields_branches : ∀ (bound : Nat) {c : Cursor}, c.Sound hi →
    Yields (branches statement bound) c fun x d => c.Keeps hi d ∧
      Stmt.Fill around c.previous.stop d.previous.stop x.1 ∧
        Stmt.Fill around c.previous.stop d.previous.stop x.2 := by
  intro bound
  induction bound with
  | zero => exact fun h => yields_pure ⟨h.keeps, Stmt.fill_nil, Stmt.fill_nil⟩
  | succ bound ih =>
    intro c h
    refine (yields_blockUntil _ hstatement h).bind fun thenBody c₁ ⟨keeps, thenFills⟩ => ?_
    refine yields_kind ?_
    split
    · rename_i hk
      refine (yields_advance keeps.sound (hk ▸ rfl)).bind fun _ c₂ ⟨took, hstart⟩ => ?_
      obtain rfl := hstart
      refine (Expr.reads_parse took.sound).bind fun cond c₃ ⟨read, lies⟩ => ?_
      refine (yields_requireKeyword .thenWord read.sound).bind fun _ c₄ ⟨word, _⟩ => ?_
      refine (ih word.sound).bind fun x d ⟨further, innerThen, innerElse⟩ =>
        yields_previous (yields_pure ?_)
      have onward : c₂.Keeps hi d := ((read.trans word.toPasses).on further).keeps took.sound
      have := took.sound.order
      have := read.stop_le
      have := word.stop_le
      have := further.stop
      have := keeps.stop
      have headed : c₁.Passes hi d ∧
          (Stmt.branch (c₂.previous.merge d.previous) cond x.1 x.2).Sits around c₁.previous.stop
            d.previous.stop :=
        took.headed onward rfl outside
          (List.forall_mem_singleton.mpr (lies.mono (by omega) (by omega)))
          (List.forall_mem_cons.mpr ⟨innerThen.mono (by omega) (by omega),
            List.forall_mem_singleton.mpr (innerElse.mono (by omega) (by omega))⟩)
      obtain ⟨passes, sits⟩ := headed
      exact ⟨keeps.trans (passes.keeps keeps.sound), thenFills.mono (Nat.le_refl _) passes.stop_le,
        (Stmt.fill_single sits).mono keeps.stop (Nat.le_refl _)⟩
    · rename_i hk
      refine (yields_advance keeps.sound (hk ▸ rfl)).bind fun _ c₂ ⟨took, _⟩ => ?_
      refine (yields_blockUntil _ hstatement took.sound).bind fun elseBody d ⟨further, elseFills⟩ =>
        yields_pure ?_
      have onward := (took.toPasses.on further).keeps keeps.sound
      exact ⟨keeps.trans onward, thenFills.mono (Nat.le_refl _) onward.stop,
        elseFills.mono (Nat.le_trans keeps.stop took.stop_le) (Nat.le_refl _)⟩
    · exact yields_pure ⟨keeps, thenFills, Stmt.fill_nil⟩

theorem reads_whileStatement : ReadsIn hi (whileStatement statement) (Stmt.Sits around) := by
  intro c h
  refine (yields_requireKeyword .whileWord h).bind fun _ c₁ ⟨took, hstart⟩ => ?_
  obtain rfl := hstart
  refine (Expr.reads_parse took.sound).bind fun cond c₂ ⟨read, lies⟩ => ?_
  refine (yields_blockUntil _ hstatement read.sound).bind fun body c₃ ⟨keeps, fills⟩ => ?_
  refine (yields_requireKeyword .wendWord keeps.sound).bind fun _ d ⟨close, _⟩ =>
    yields_previous (yields_pure ?_)
  have onward : c₁.Keeps hi d := ((read.on keeps).trans close.toPasses).keeps took.sound
  have := took.sound.order
  have := read.stop_le
  have := keeps.stop
  have := close.stop_le
  exact took.headed onward rfl outside
    (List.forall_mem_singleton.mpr (lies.mono (by omega) (by omega)))
    (List.forall_mem_singleton.mpr (fills.mono (by omega) (by omega)))

theorem reads_ifStatement : ReadsIn hi (ifStatement statement) (Stmt.Sits around) := by
  intro c h
  refine (yields_requireKeyword .ifWord h).bind fun _ c₁ ⟨took, hstart⟩ => ?_
  obtain rfl := hstart
  refine (Expr.reads_parse took.sound).bind fun cond c₂ ⟨read, lies⟩ => ?_
  refine (yields_requireKeyword .thenWord read.sound).bind fun _ c₃ ⟨word, _⟩ => ?_
  have := took.sound.order
  have := read.stop_le
  have := word.stop_le
  have branch {thenBody elseBody : List Stmt} {d e : Cursor} (onward : c₃.Keeps hi d)
      (keeps : d.Keeps hi e) (thenFills : Stmt.Fill around c₃.previous.stop d.previous.stop thenBody)
      (elseFills : Stmt.Fill around c₃.previous.stop d.previous.stop elseBody) :
      Yields (previous >>= fun p => pure (Stmt.branch (c₁.previous.merge p) cond thenBody elseBody)) e
        fun stmt e => c.Passes hi e ∧ stmt.Sits around c.previous.stop e.previous.stop := by
    have := onward.stop
    have := keeps.stop
    have behind : c₁.Passes hi e := (read.trans word.toPasses).on (onward.trans keeps)
    refine yields_previous (yields_pure ?_)
    exact took.headed (behind.keeps took.sound) rfl outside
      (List.forall_mem_singleton.mpr (lies.mono (by omega) (by omega)))
      (List.forall_mem_cons.mpr ⟨thenFills.mono (by omega) (by omega),
        List.forall_mem_singleton.mpr (elseFills.mono (by omega) (by omega))⟩)
  refine yields_kind (.ite (fun _ => yields_remaining ?_) fun _ => ?_)
  · refine (yields_branches outside hstatement _ word.sound).bind
      fun _ d ⟨onward, thenFills, elseFills⟩ => ?_
    refine (yields_requireKeyword .endWord onward.sound).bind fun _ d₁ ⟨close, _⟩ => ?_
    refine (yields_requireKeyword .ifWord close.sound).bind fun _ _ ⟨last, _⟩ => ?_
    exact branch onward ((close.toPasses.trans last.toPasses).keeps onward.sound) thenFills elseFills
  · refine (reads_line hstatement word.sound).bind fun thenBody c₄ ⟨onward, thenFills⟩ => ?_
    have onward := onward.keeps word.sound
    refine yields_accept onward.sound isEnd_of_isKeyword (fun c₅ other => ?_)
      (branch onward onward.sound.keeps thenFills Stmt.fill_nil)
    refine (reads_line hstatement other.sound).bind fun elseBody d ⟨further, elseFills⟩ => ?_
    have behind := (other.toPasses.trans further).keeps onward.sound
    exact branch (onward.trans behind) behind.sound.keeps
      (thenFills.mono (Nat.le_refl _) behind.stop)
      (elseFills.mono (Nat.le_trans onward.stop other.stop_le) (Nat.le_refl _))

omit outside hstatement in
theorem yields_loopCondition (h : c.Sound hi) :
    Yields loopCondition c fun found d => c.Keeps hi d ∧
      ∀ x, found = some x → x.1.Lies c.previous.stop d.previous.stop := by
  have condition (untilTrue : Bool) {d : Cursor} (took : Took hi c d) :
      Yields (Expr.parse >>= fun cond => pure (some (cond, untilTrue))) d fun found d =>
        c.Keeps hi d ∧ ∀ x, found = some x → x.1.Lies c.previous.stop d.previous.stop := by
    refine (Expr.reads_parse took.sound).bind fun cond e ⟨read, lies⟩ => yields_pure
      ⟨(took.toPasses.trans read).keeps h, ?_⟩
    rintro _ ⟨⟩
    exact lies.mono took.stop_le (Nat.le_refl _)
  refine yields_accept h isEnd_of_isKeyword (fun _ word => condition false word) ?_
  exact yields_accept h isEnd_of_isKeyword (fun _ word => condition true word)
    (yields_pure ⟨h.keeps, nofun⟩)

theorem reads_doStatement : ReadsIn hi (doStatement statement) (Stmt.Sits around) := by
  intro c h
  refine (yields_requireKeyword .doWord h).bind fun _ c₁ ⟨took, hstart⟩ => ?_
  obtain rfl := hstart
  refine (yields_loopCondition took.sound).bind fun before c₂ ⟨keeps, hbefore⟩ => ?_
  refine (yields_blockUntil _ hstatement keeps.sound).bind fun body c₃ ⟨onward, fills⟩ => ?_
  refine (yields_requireKeyword .loopWord onward.sound).bind fun _ c₄ ⟨close, _⟩ => ?_
  have behind : c₁.Keeps hi c₄ := (keeps.trans onward).trans (close.keeps onward.sound)
  have := took.sound.order
  have := keeps.stop
  have := onward.stop
  have := close.stop_le
  have loop {cond : Expr} (untilTrue testsAfter : Bool) {d : Cursor} (further : c₄.Keeps hi d)
      (lies : cond.Lies c₁.previous.start d.previous.stop) : c.Passes hi d ∧
        (Stmt.loop (c₁.previous.merge d.previous) cond body untilTrue testsAfter).Sits around
          c.previous.stop d.previous.stop := by
    have := further.stop
    exact took.headed (behind.trans further) rfl outside (List.forall_mem_singleton.mpr lies)
      (List.forall_mem_singleton.mpr (fills.mono (by omega) (by omega)))
  match before with
  | some (cond, untilTrue) =>
    refine yields_previous (yields_pure (loop untilTrue false close.sound.keeps ?_))
    exact (hbefore _ rfl).mono (by omega) (by omega)
  | none =>
    refine (yields_loopCondition close.sound).bind fun found d ⟨further, hfound⟩ =>
      yields_previous ?_
    have := further.stop
    match found with
    | some (cond, untilTrue) =>
      exact yields_pure (loop untilTrue true further ((hfound _ rfl).mono (by omega) (by omega)))
    | none =>
      refine yields_pure (loop false false further (.leaf ⟨Nat.le_refl _, took.sound.order, ?_⟩ rfl))
      exact (behind.trans further).stop

omit outside in
theorem yields_countedBody (h : c.Sound hi) : Yields (countedBody statement) c fun body d =>
    c.Keeps hi d ∧ Stmt.Fill around c.previous.stop d.previous.stop body := by
  refine (yields_blockUntil _ hstatement h).bind fun body c₁ ⟨keeps, fills⟩ => ?_
  refine (yields_requireKeyword .nextWord keeps.sound).bind fun _ c₂ ⟨close, _⟩ => ?_
  have behind := keeps.trans (close.keeps keeps.sound)
  refine yields_accept close.sound (fun found hfound => ?_) (fun _ var => ?_) ?_
  · cases found with
    | ident => rfl
    | _ => nomatch hfound
  · exact yields_pure ⟨behind.trans (var.keeps close.sound),
      fills.mono (Nat.le_refl _) (Nat.le_trans close.stop_le var.stop_le)⟩
  · exact yields_pure ⟨behind, fills.mono (Nat.le_refl _) close.stop_le⟩

theorem reads_forStatement : ReadsIn hi (forStatement statement) (Stmt.Sits around) := by
  intro c h
  refine (yields_requireKeyword .forWord h).bind fun _ c₁ ⟨took, hstart⟩ => ?_
  obtain rfl := hstart
  have := took.sound.order
  refine yields_accept took.sound isEnd_of_isKeyword (fun c₂ each => ?_) ?_
  · refine (yields_identifier each.sound).bind fun var c₃ name => ?_
    refine (yields_requireWord "in" name.sound).bind fun _ c₄ ⟨word, _⟩ => ?_
    refine (Expr.reads_parse word.sound).bind fun collection c₅ ⟨read, lies⟩ => ?_
    refine (yields_countedBody hstatement read.sound).bind fun body d ⟨keeps, fills⟩ =>
      yields_previous (yields_pure ?_)
    have := (each.toPasses.trans (name.toPasses.trans word.toPasses)).stop_le
    have := read.stop_le
    have := keeps.stop
    have onward := (((each.toPasses.trans name.toPasses).trans word.toPasses).trans read).on keeps
    exact took.headed (onward.keeps took.sound) rfl outside
      (List.forall_mem_singleton.mpr (lies.mono (by omega) (by omega)))
      (List.forall_mem_singleton.mpr (fills.mono (by omega) (by omega)))
  · refine (yields_identifier took.sound).bind fun var c₂ name => ?_
    refine (yields_requireSymbol .eq name.sound).bind fun _ c₃ ⟨sign, _⟩ => ?_
    refine (Expr.reads_parse sign.sound).bind fun first c₄ ⟨readFirst, firstLies⟩ => ?_
    refine (yields_requireKeyword .toWord readFirst.sound).bind fun _ c₅ ⟨word, _⟩ => ?_
    refine (Expr.reads_parse word.sound).bind fun last c₆ ⟨readLast, lastLies⟩ => ?_
    have := (name.toPasses.trans sign.toPasses).stop_le
    have := readFirst.stop_le
    have := word.stop_le
    have := readLast.stop_le
    have onward : c₁.Passes hi c₆ :=
      (((name.toPasses.trans sign.toPasses).trans readFirst).trans word.toPasses).trans readLast
    have counted {step : Expr} {d : Cursor} (keeps : c₆.Keeps hi d)
        (stepLies : step.Lies c₅.previous.stop d.previous.stop) :
        Yields (countedBody statement >>= fun body => previous >>= fun p =>
          pure (Stmt.count (c₁.previous.merge p) var first last step body)) d
            fun stmt e => c.Passes hi e ∧ stmt.Sits around c.previous.stop e.previous.stop := by
      refine (yields_countedBody hstatement keeps.sound).bind fun body e ⟨further, fills⟩ =>
        yields_previous (yields_pure ?_)
      have := keeps.stop
      have := further.stop
      refine took.headed ((onward.on (keeps.trans further)).keeps took.sound) rfl outside ?_
        (List.forall_mem_singleton.mpr (fills.mono (by omega) (by omega)))
      exact List.forall_mem_cons.mpr ⟨firstLies.mono (by omega) (by omega),
        List.forall_mem_cons.mpr ⟨lastLies.mono (by omega) (by omega),
          List.forall_mem_singleton.mpr (stepLies.mono (by omega) (by omega))⟩⟩
    refine yields_accept readLast.sound isEnd_of_isWord (fun c₇ stepWord => ?_)
      (counted readLast.sound.keeps (.leaf lastLies.here rfl))
    refine (Expr.reads_parse stepWord.sound).bind fun step d ⟨readStep, stepLies⟩ => ?_
    exact counted ((stepWord.toPasses.trans readStep).keeps readLast.sound)
      (stepLies.mono (Nat.le_trans readLast.stop_le stepWord.stop_le) (Nat.le_refl _))

omit outside in
/-- The conditions and the body of each case. -/
theorem yields_cases : ∀ (bound : Nat) {c : Cursor}, c.Sound hi →
    Yields (cases statement bound) c fun found d => c.Keeps hi d ∧ ∀ case ∈ found,
      (∀ e ∈ case.conditions.getD [], e.Lies c.previous.stop d.previous.stop) ∧
        Stmt.Fill around c.previous.stop d.previous.stop case.body := by
  intro bound
  induction bound with
  | zero => exact fun h => yields_pure ⟨h.keeps, nofun⟩
  | succ bound ih =>
    intro c h
    refine (yields_dropSeparators h).bind fun _ c₁ dropped => ?_
    refine yields_kind (.ite (fun _ => yields_pure ⟨dropped, nofun⟩) fun _ => ?_)
    refine (yields_requireKeyword .caseWord dropped.sound).bind fun _ c₂ ⟨word, _⟩ => ?_
    have := dropped.stop
    have := word.stop_le
    have further {conditions : Option (List Expr)} {c₃ : Cursor} (keeps : c₂.Keeps hi c₃)
        (hconditions : ∀ e ∈ conditions.getD [], e.Lies c₂.previous.stop c₃.previous.stop) :
        Yields (blockUntil statement [.caseWord, .endWord] >>= fun body =>
          cases statement bound >>= fun rest => pure (.mk conditions body :: rest)) c₃
            fun found d => c.Keeps hi d ∧ ∀ case ∈ found,
              (∀ e ∈ case.conditions.getD [], e.Lies c.previous.stop d.previous.stop) ∧
                Stmt.Fill around c.previous.stop d.previous.stop case.body := by
      refine (yields_blockUntil _ hstatement keeps.sound).bind fun body c₄ ⟨onward, fills⟩ => ?_
      refine (ih onward.sound).bind fun rest d ⟨behind, hrest⟩ => yields_pure ?_
      have := keeps.stop
      have := onward.stop
      have := behind.stop
      have onward' : c₁.Passes hi d := word.toPasses.on (keeps.trans (onward.trans behind))
      refine ⟨dropped.trans (onward'.keeps dropped.sound),
        List.forall_mem_cons.mpr ⟨⟨fun e he => (hconditions e he).mono (by omega) (by omega),
          fills.mono (by omega) (by omega)⟩, fun case hcase => ?_⟩⟩
      obtain ⟨exprs, body⟩ := hrest case hcase
      exact ⟨fun e he => (exprs e he).mono (by omega) (Nat.le_refl _),
        body.mono (by omega) (Nat.le_refl _)⟩
    refine yields_accept word.sound isEnd_of_isKeyword
      (fun c₃ other => further (other.keeps word.sound) nofun) ?_
    have conditions : Yields (some <$> commaList Expr.parse) c₂ fun conditions d =>
        c₂.Passes hi d ∧ ∀ e ∈ conditions.getD [], e.Lies c₂.previous.stop d.previous.stop :=
      (yields_commaList Expr.reads_parse word.sound).map fun _ _ ⟨passes, row, _⟩ =>
        ⟨passes, row.forall_mem Expr.Lies.mono⟩
    exact conditions.bind fun _ _ ⟨passes, lies⟩ => further (passes.keeps word.sound) lies

theorem reads_selectStatement : ReadsIn hi (selectStatement statement) (Stmt.Sits around) := by
  intro c h
  refine (yields_requireKeyword .selectWord h).bind fun _ c₁ ⟨took, hstart⟩ => ?_
  obtain rfl := hstart
  refine (yields_requireKeyword .caseWord took.sound).bind fun _ c₂ ⟨word, _⟩ => ?_
  refine (Expr.reads_parse word.sound).bind fun subject c₃ ⟨read, lies⟩ => yields_remaining ?_
  refine (yields_cases hstatement _ read.sound).bind fun found c₄ ⟨keeps, each⟩ => ?_
  refine (yields_requireKeyword .endWord keeps.sound).bind fun _ c₅ ⟨close, _⟩ => ?_
  refine (yields_requireKeyword .selectWord close.sound).bind fun _ d ⟨final, _⟩ =>
    yields_previous (yields_pure ?_)
  have behind := close.toPasses.trans final.toPasses
  have onward : c₁.Passes hi d := ((word.toPasses.trans read).on keeps).trans behind
  have := took.sound.order
  have := word.stop_le
  have := read.stop_le
  have := keeps.stop
  have := behind.stop_le
  refine took.headed (onward.keeps took.sound) rfl outside ?_ ?_
  · refine List.forall_mem_cons.mpr ⟨lies.mono (by omega) (by omega), fun e he => ?_⟩
    obtain ⟨case, hcase, he⟩ := List.mem_flatMap.mp he
    exact ((each case hcase).1 e he).mono (by omega) (by omega)
  · exact List.forall_mem_map.mpr fun case hcase =>
      (each case hcase).2.mono (by omega) (by omega)

theorem reads_withStatement : ReadsIn hi (withStatement statement) (Stmt.Sits around) := by
  intro c h
  refine (yields_requireKeyword .withWord h).bind fun _ c₁ ⟨took, hstart⟩ => ?_
  obtain rfl := hstart
  refine (Expr.reads_parse took.sound).bind fun object c₂ ⟨read, lies⟩ => ?_
  refine (yields_blockUntil _ hstatement read.sound).bind fun body c₃ ⟨keeps, fills⟩ => ?_
  refine (yields_requireKeyword .endWord keeps.sound).bind fun _ c₄ ⟨close, _⟩ => ?_
  refine (yields_requireKeyword .withWord close.sound).bind fun _ d ⟨final, _⟩ =>
    yields_previous (yields_pure ?_)
  have behind := close.toPasses.trans final.toPasses
  have := took.sound.order
  have := read.stop_le
  have := keeps.stop
  have := behind.stop_le
  exact took.headed (((read.on keeps).trans behind).keeps took.sound) rfl outside
    (List.forall_mem_singleton.mpr (lies.mono (by omega) (by omega)))
    (List.forall_mem_singleton.mpr (fills.mono (by omega) (by omega)))

end Parse

end PageScript
