import PageScript.Proofs.Syntax.Program.Control
import PageScript.Proofs.Syntax.Program.Declarations

/-!
# Proofs/Syntax/Program/Reading — what is written is read

`Written.takes` puts the readers together: one case for each way to write a statement, where the
statements inside it are read with a smaller bound because the statement has a piece of its own in
front of them.  From it follows what a whole program is read as (`ProgramWritten.programOfTokens?`).
-/

namespace PageScript

open Parse

namespace Parse

variable {statement : Enclosing → Parse Stmt} {around : Enclosing} {p w e : Piece} {ps qs : List Piece}
  {follow : TokenKind → Prop} {α : Type} {result : α → Prop}

/-! ## Statements on one line -/

theorem takes_assignment {target value : Expr} {eq : Piece} (s : Span)
    (htarget : target.ChainWritten ps) (heq : eq.kind = .symbol .eq)
    (hvalue : Expr.WrittenAt 0 value qs) :
    Takes assignmentOrCall (ps ++ eq :: qs) TokenKind.StopsExpr (Stmt.assign s target value).Same := by
  refine htarget.takes (fun target' _ htarget => ?_) (.of_kind heq ⟨nofun, nofun⟩)
  refine .acceptSymbol heq ?_
  refine .bind_last hvalue.takes fun value' hvalue => .pure ?_
  change Stmt.assign .origin target'.unplaced value'.unplaced = Stmt.assign .origin _ _
  rw [htarget, hvalue]

theorem takes_callStatement {callee : Expr} {args : List Arg} (s s' : Span)
    (hw : w.kind = .keyword .callWord) (h : (Expr.call s' callee args).ChainWritten ps) :
    Takes callStatement (w :: ps) TokenKind.StopsExpr
      (Stmt.call s (.call s' callee args)).Same := by
  refine .advance (hw ▸ rfl) fun _ => ?_
  rw [← List.append_nil ps]
  refine h.takes (fun chain' _ hchain => ?_) fun _ hk => ⟨hk.lparen, hk.dot⟩
  cases chain' with
  | call s'' callee' args' => exact .pure (congrArg (Stmt.call .origin) hchain)
  | _ => cases hchain

theorem takes_exitStatement {target : ExitTarget} {t : Piece} (s : Span)
    (hw : w.kind = .keyword .exitWord) (ht : t.kind = .keyword target.keyword) :
    Takes exitStatement [w, t] follow (Stmt.exit s target).Same := by
  refine .requireKeyword hw fun _ => .kind ?_
  rw [ht]
  cases target <;> exact .advance (ht ▸ rfl) fun _ => .pure rfl

theorem isWord_of_ends {kind : TokenKind} (h : kind.Ends) (word : String) :
    kind.isWord word = false := by
  cases kind <;> first | rfl | cases h

theorem takes_optionStatement (s : Span) (hw : w.kind = .keyword .optionWord)
    (he : e.kind.isWord "explicit" = true) :
    Takes optionStatement [w, e] TokenKind.Ends (Stmt.optionExplicit s true).Same := by
  refine .requireKeyword hw fun _ => .requireWord he fun _ => ?_
  refine .accept_false (fun _ hk => isWord_of_ends hk "off") ?_
  refine .accept_false (fun _ hk => isWord_of_ends hk "on") ?_
  exact .previous fun _ => .pure rfl

theorem takes_optionStatement_on {o : Piece} (s : Span) (hw : w.kind = .keyword .optionWord)
    (he : e.kind.isWord "explicit" = true) (ho : o.kind.isWord "on" = true) :
    Takes optionStatement [w, e, o] follow (Stmt.optionExplicit s true).Same := by
  refine .requireKeyword hw fun _ => .requireWord he fun _ => ?_
  have other : o.kind.isWord "off" = false := TokenKind.isWord_of_ne ho (by decide +kernel)
  refine .accept_false other (.acceptWord ho ?_)
  exact .previous fun _ => .pure rfl

theorem takes_optionStatement_off {o : Piece} (s : Span) (hw : w.kind = .keyword .optionWord)
    (he : e.kind.isWord "explicit" = true) (ho : o.kind.isWord "off" = true) :
    Takes optionStatement [w, e, o] follow (Stmt.optionExplicit s false).Same := by
  refine .requireKeyword hw fun _ => .requireWord he fun _ => .acceptWord ho ?_
  exact .previous fun _ => .pure rfl

section

variable {o r n g z : Piece}

theorem takes_onErrorStatement_resume (s : Span) (ho : o.kind.isWord "on" = true)
    (he : e.kind.isWord "error" = true) (hr : r.kind.isWord "resume" = true)
    (hn : n.kind = .keyword .nextWord) :
    Takes onErrorStatement [o, e, r, n] follow (Stmt.onError s .resumeNext).Same := by
  refine .requireWord ho fun _ => .requireWord he fun _ => .acceptWord hr ?_
  exact .requireKeyword hn fun _ => .previous fun _ => .pure rfl

theorem takes_onErrorStatement_goto (s : Span) (ho : o.kind.isWord "on" = true)
    (he : e.kind.isWord "error" = true) (hg : g.kind.isWord "goto" = true)
    (hz : isZero z.kind = true) :
    Takes onErrorStatement [o, e, g, z] follow (Stmt.onError s .gotoZero).Same := by
  have other : g.kind.isWord "resume" = false := TokenKind.isWord_of_ne hg (by decide +kernel)
  have further : z.kind.isEnd = false := by
    cases hkind : z.kind <;> first | rfl | (rw [hkind] at hz; cases hz)
  refine .requireWord ho fun _ => .requireWord he fun _ => .accept_false other ?_
  refine .requireWord hg fun _ => .require further hz fun _ => ?_
  exact .previous fun _ => .pure rfl

end

/-! ## The first token -/

/-- What a statement is read by that starts with a reserved word. -/
def keywordStatement (inner : Enclosing → Parse Stmt) (around : Enclosing) :
    Keyword → Parse Stmt
  | .dimWord => do variableGroup (← advance) .isPublic
  | .publicWord | .privateWord => modifiedDeclaration inner around
  | .constWord => do constantGroup (← span)
  | .reDimWord => redimStatement
  | .functionWord | .subWord => do procedureFrom inner around (← span) .isPublic
  | .propertyWord => do propertyFrom inner around (← span) .isPublic false
  | .classWord => classStatement inner around
  | .ifWord => ifStatement (inner around)
  | .whileWord => whileStatement (inner around)
  | .doWord => doStatement (inner around)
  | .forWord => forStatement (inner around)
  | .selectWord => selectStatement (inner around)
  | .withWord => withStatement (inner around)
  | .exitWord => exitStatement
  | .optionWord => optionStatement
  | .callWord => callStatement
  | .setWord => markedAssignment
  | _ => expected "statement"

theorem takes_byKeyword {k : Keyword} {result : Stmt → Prop} (hw : w.kind = .keyword k)
    (h : Takes (keywordStatement statement around k) (w :: ps) follow result) :
    Takes (statementWith statement around) (w :: ps) follow result := by
  refine .get .trivial fun c hc _ => ?_
  rw [hc, hw]
  cases k <;> exact h

theorem takes_byAccess {access : Access} {result : Stmt → Prop}
    (hw : w.kind = .keyword access.keyword)
    (h : Takes (modifiedDeclaration statement around) (w :: ps) follow result) :
    Takes (statementWith statement around) (w :: ps) follow result := by
  cases access <;> exact takes_byKeyword hw h

/-- A name that only a symbol follows starts a chain, whatever the name is. -/
theorem takes_byChain {result : Stmt → Prop} (starts : Expr.StartsChain ps)
    (next : ∃ p q qs, ps = p :: q :: qs)
    (h : Takes assignmentOrCall ps follow result) :
    Takes (statementWith statement around) ps follow result := by
  obtain ⟨p, q, qs, rfl⟩ := next
  cases starts with
  | dot hp =>
    refine .get .trivial fun c hc _ => ?_
    rw [hc, hp]
    exact h
  | name hp next =>
    obtain ⟨s, hq⟩ := next q rfl
    have ahead : Ahead (q :: qs) follow (· = .symbol s) := hq
    refine .get ahead fun c hc hnext => ?_
    rw [hc, hp]
    refine .if_false ?_ (.if_false ?_ h)
    · rw [hnext]
      simp [TokenKind.isWord]
    · rw [hnext]
      simp

theorem takes_onError {o e : Piece} {result : Stmt → Prop} (ho : o.kind.isWord "on" = true)
    (he : e.kind.isWord "error" = true)
    (h : Takes onErrorStatement (o :: e :: ps) follow result) :
    Takes (statementWith statement around) (o :: e :: ps) follow result := by
  have ahead : Ahead (e :: ps) follow fun k => k.isWord "error" = true := he
  refine .get ahead fun c hc hnext => ?_
  rw [hc]
  cases hkind : o.kind with
  | ident name =>
    rw [hkind] at ho
    exact .if_true (Bool.and_eq_true_iff.mpr ⟨ho, hnext⟩) h
  | _ =>
    rw [hkind] at ho
    cases ho

end Parse

namespace Stmt

variable {statement : Enclosing → Parse Stmt} {around : Enclosing} {stmt : Stmt} {ps : List Piece}
  {bound : Nat}

/-- **A statement is read** if the statements inside it are. -/
theorem Written.takes_statementWith (h : Written around stmt ps)
    (hstatement : TakesUpTo statement bound) (hbound : ps.length ≤ bound + 1) :
    Takes (statementWith statement around) ps TokenKind.Ends stmt.Same := by
  have stops : ∀ kind : TokenKind, kind.Ends → kind.StopsExpr := fun _ hk => hk.stopsExpr
  cases h with
  | assign htarget heq hvalue =>
    refine takes_byChain (htarget.starts.append heq) (htarget.two_le _) ?_
    exact ((takes_assignment _ htarget heq hvalue).mono stops)
  | call hw h => exact takes_byKeyword hw ((takes_callStatement _ _ hw h).mono stops)
  | dim hw h => exact takes_byKeyword hw (.advance (hw ▸ rfl) fun start => takes_variableGroup start _ h)
  | accessed hw h other => exact takes_byAccess hw (takes_accessed _ hw h other)
  | const hw h => exact takes_byKeyword hw (.span fun start => takes_constantGroup_one start hw h)
  | constants hw h several =>
    exact takes_byKeyword hw (.span fun start => takes_constantGroup_several start _ hw h several)
  | redim hw h other => exact takes_byKeyword hw (takes_redimStatement _ hw h other)
  | redimPreserve hw hm h => exact takes_byKeyword hw (takes_redimStatement_preserve _ hw hm h)
  | @procedure _ s decl ms w qs outside hm hw h =>
    simp only [List.length_append, List.length_cons] at hbound
    have few : qs.length ≤ bound := by omega
    obtain ⟨haccess, -, rfl⟩ | ⟨p, ms, rfl, hp, hms⟩ := hm.nil_or_cons
    · have read (start : Span) :
          Takes (procedureFrom statement around start .isPublic) (w :: _) TokenKind.Ends _ :=
        haccess ▸ takes_procedureFrom start s outside hstatement hw h few
      refine takes_byKeyword hw ?_
      cases hkind : decl.kind <;> exact .span fun start => read start
    · obtain rfl := hms rfl
      exact takes_byAccess hp (takes_procedure_modified s outside hstatement hp hw h few)
  | @property _ s form decl isDefault _ w _ qs inside hm hw hf hkind h =>
    simp only [List.length_append, List.length_cons] at hbound
    have few : qs.length ≤ bound := by omega
    obtain ⟨haccess, rfl, rfl⟩ | ⟨p, ms, rfl, hp, -⟩ := hm.nil_or_cons
    · have read (start : Span) :
          Takes (propertyFrom statement around start .isPublic false) (w :: _) TokenKind.Ends _ :=
        haccess ▸ takes_propertyFrom start s false inside hstatement hw hf hkind h few
      exact takes_byKeyword hw (.span read)
    · exact takes_byAccess hp
        (takes_property_modified s hp hm inside hstatement hw hf hkind h few)
  | classDecl outside hw hp hrun h hes =>
    simp only [List.length_append, List.length_cons] at hbound
    exact takes_byKeyword hw (takes_classStatement _ outside hstatement hw hp hrun h hes (by omega))
  | branch hw hcond ht hthen helse hes =>
    simp only [List.length_append, List.length_cons] at hbound
    exact takes_byKeyword hw
      (takes_ifStatement _ hstatement hw hcond ht hthen helse hes (by omega))
  | whileLoop hw hcond hbody he =>
    simp only [List.length_append, List.length_cons] at hbound
    exact takes_byKeyword hw
      (takes_whileStatement _ hstatement hw hcond hbody he (by omega))
  | doBefore hw hu hcond hbody he =>
    simp only [List.length_append, List.length_cons] at hbound
    exact takes_byKeyword hw
      (takes_doStatement_before _ hstatement hw hu hcond hbody he (by omega))
  | @doBehind _ s _ _ _ _ _ _ _ _ hw hbody he hu hcond =>
    simp only [List.length_append, List.length_cons] at hbound
    have read := takes_doStatement_behind s hstatement hw hbody he hu hcond (by omega)
    exact takes_byKeyword hw (read.mono stops)
  | count hw hv heq hfirst ht hlast hm hstep hbody hn =>
    simp only [List.length_append, List.length_cons] at hbound
    exact takes_byKeyword hw
      (takes_forStatement_count _ hstatement hw hv heq hfirst ht hlast hm hstep hbody hn (by omega))
  | forEach hw he hv hi hcollection hbody hn =>
    simp only [List.length_append, List.length_cons] at hbound
    exact takes_byKeyword hw
      (takes_forStatement_each _ hstatement hw he hv hi hcollection hbody hn (by omega))
  | select hw hc hsubject hrun h hes =>
    simp only [List.length_append, List.length_cons] at hbound
    exact takes_byKeyword hw
      (takes_selectStatement _ hstatement hw hc hsubject hrun h hes (by omega))
  | withObject hw hobject hbody hes =>
    simp only [List.length_append, List.length_cons] at hbound
    exact takes_byKeyword hw
      (takes_withStatement _ hstatement hw hobject hbody hes (by omega))
  | exit hw ht => exact takes_byKeyword hw (takes_exitStatement _ hw ht)
  | explicit hw he => exact takes_byKeyword hw (takes_optionStatement _ hw he)
  | explicitOn hw he ho => exact takes_byKeyword hw (takes_optionStatement_on _ hw he ho)
  | explicitOff hw he ho => exact takes_byKeyword hw (takes_optionStatement_off _ hw he ho)
  | resumeNext ho he hr hn => exact takes_onError ho he (takes_onErrorStatement_resume _ ho he hr hn)
  | gotoZero ho he hg hz => exact takes_onError ho he (takes_onErrorStatement_goto _ ho he hg hz)

/-- **Every statement is read** with a bound that is not less than the number of its pieces. -/
theorem Written.takes : ∀ {bound : Nat} {around : Enclosing} {stmt : Stmt} {ps : List Piece},
    Written around stmt ps → ps.length ≤ bound →
      Takes (Stmt.parseAt bound around) ps TokenKind.Ends stmt.Same
  | 0, _, _, _, h, hbound => absurd h.starts.length_pos (Nat.not_lt_of_le hbound)
  | _ + 1, _, _, _, h, hbound =>
    h.takes_statementWith (fun _ _ _ h hbound => h.takes hbound) hbound

theorem takesUpTo_parseAt (bound : Nat) : TakesUpTo (Stmt.parseAt bound) bound :=
  fun _ _ _ h hbound => h.takes hbound

/-! ## Programs -/

variable {body : List Stmt}

/-- The statements of a program go on to the end of the page. -/
theorem ProgramWritten.readsOn (h : ProgramWritten body ps) (hbound : ps.length ≤ bound) :
    ∃ seps qs, ps = seps ++ qs ∧ (∀ p ∈ seps, p.kind.IsJoint) ∧
      ReadsOn (Stmt.parseAt bound ⟨false, false⟩) (fun _ => false) (· = .endOfPage) body qs := by
  have stop : NoStart fun _ => false := fun _ _ => rfl
  have ends : ∀ kind : TokenKind, kind = .endOfPage → kind.Ends := by
    rintro _ rfl
    rfl
  have nothing : ReadsOn (Stmt.parseAt bound ⟨false, false⟩) (fun _ => false) (· = .endOfPage) [] [] :=
    readsOn_nil (fun kind hk => stays_of_isEnd (hk ▸ rfl)) (fun kind hk => hk ▸ rfl)
  cases h with
  | closed hseps h =>
    rw [List.length_append] at hbound
    have read := h.readsOn (takesUpTo_parseAt bound) stop nothing (by omega)
    rw [List.append_nil, List.append_nil] at read
    exact ⟨_, _, rfl, hseps, read⟩
  | trailing hseps h hlast =>
    rw [List.length_append, List.length_append] at hbound
    have last := readsOn_last (hlast.takes (by omega)) hlast.starts stop ends nothing
    exact ⟨_, _, rfl, hseps, h.readsOn (takesUpTo_parseAt bound) stop last (by omega)⟩

/-- **A written program is read.** -/
theorem ProgramWritten.programOfTokens? {ts : List Token} {last : Token} (h : ProgramWritten body ps)
    (hts : Piece.GiveAll ps ts) (hlast : last.kind = .endOfPage) :
    ∃ body', programOfTokens? (ts ++ [last]) = .ok body' ∧ SameAll body body' := by
  have length : (ts ++ [last]).length = ts.length + 1 := List.length_append
  obtain ⟨seps, qs, rfl, hseps, read⟩ :=
    h.readsOn (Nat.le_succ_of_le (Nat.le_of_eq hts.length.symm))
  have fits : seps.length + qs.length ≤ ts.length + 1 := by
    rw [hts.length, List.length_append]
    exact Nat.le_succ _
  obtain ⟨body', s', hbody, hrun⟩ := (read hseps fits).run [last] .origin hts hlast
  refine ⟨body', ?_, hbody⟩
  have finished : Parse.program ⟨ts ++ [last], .origin⟩ = .ok (body', ⟨[last], s'⟩) := by
    change (statements (Stmt.parseAt (ts ++ [last]).length ⟨false, false⟩) (fun _ => false)
      (ts ++ [last]).length >>= fun body => Parse.kind >>= fun found =>
        if found.isEnd then pure body else expected "statement") _ = _
    have found : (Cursor.mk [last] s').kind.isEnd = true := congrArg TokenKind.isEnd hlast
    rw [length, bind_of_ok hrun, bind_of_ok (kind_run _), if_pos found]
    rfl
  change (Parse.program ⟨ts ++ [last], .origin⟩ >>= fun found => pure found.1) = _
  rw [finished]
  rfl

end Stmt

end PageScript
