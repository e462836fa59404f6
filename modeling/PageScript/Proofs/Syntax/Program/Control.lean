import PageScript.Proofs.Syntax.Program.Blocks
import PageScript.Syntax.Stmt.Parser.Control

/-!
# Proofs/Syntax/Program/Control — branches and loops are read

One lemma for each reader of `Syntax/Stmt/Parser/Control`.  Every body ends at its own words, and what
follows a condition is a separator or a word that no expression goes on with.
-/

namespace PageScript

open Parse

namespace Parse

variable {α : Type} {statement : Enclosing → Parse Stmt} {bound : Nat} {around : Enclosing}
  {follow : TokenKind → Prop} {result : α → Prop} {body : List Stmt} {w e : Piece}
  {bs cs es ps qs : List Piece}

/-- An expression in front of a word is read. -/
theorem takes_expr_word {k : Keyword} {cond : Expr} {f : Expr → Parse α}
    (hcond : Expr.WrittenAt 0 cond cs) (hw : w.kind = .keyword k)
    (hk : (TokenKind.keyword k).binaryOp? = none)
    (hf : ∀ cond', cond.Same cond' → Takes (f cond') (w :: ps) follow result) :
    Takes (Expr.parse >>= f) (cs ++ w :: ps) follow result :=
  .bind hcond.takes hf (.of_kind hw ⟨nofun, nofun, hk⟩)

/-- An expression in front of a body is read. -/
theorem takes_expr_body {cond : Expr} {f : Expr → Parse α} (hcond : Expr.WrittenAt 0 cond cs)
    (hbody : Stmt.Body around body bs)
    (hf : ∀ cond', cond.Same cond' → Takes (f cond') (bs ++ ps) follow result) :
    Takes (Expr.parse >>= f) (cs ++ (bs ++ ps)) follow result :=
  .bind hcond.takes hf (hbody.ahead.imp fun _ h => h.stopsExpr)

/-! ## Branches -/

/-- The words at the end of the first body of a branch. -/
def branchWords : List Keyword := [.elseIfWord, .elseWord, .endWord]

theorem aheadOfElse {elseBody : List Stmt} (helse : Stmt.ElseWritten around elseBody ps) :
    Ahead ps (· = .keyword .endWord) (OneOf branchWords) := by
  cases helse with
  | nothing =>
    rintro _ rfl
    exact ⟨.endWord, by decide, rfl⟩
  | otherwise hw => exact .of_kind hw ⟨.elseWord, by decide, rfl⟩
  | elseIf hw => exact .of_kind hw ⟨.elseIfWord, by decide, rfl⟩

/-- **The bodies of a branch are read** up to `end`. -/
theorem takes_branches (hstatement : Stmt.TakesUpTo statement bound) :
    ∀ {thenBody elseBody : List Stmt} {bs ps : List Piece} {n : Nat},
      Stmt.ElseWritten around elseBody ps → Stmt.Body around thenBody bs →
        bs.length + ps.length ≤ bound → bs.length + ps.length ≤ n →
          Takes (branches (statement around) n) (bs ++ ps) (· = .keyword .endWord)
            fun found => Stmt.SameAll thenBody found.1 ∧ Stmt.SameAll elseBody found.2
  | thenBody, elseBody, bs, ps, n, helse, hthen, hbound, hn => by
    have pos := hthen.length_pos
    obtain ⟨n, rfl⟩ : ∃ n', n = n' + 1 := ⟨n - 1, by omega⟩
    have first := hthen.takes hstatement (by omega) branchWords (by decide)
    refine .bind first (fun found hfound => ?_) (aheadOfElse helse)
    cases helse with
    | nothing =>
      have ahead : Ahead [] (· = .keyword .endWord) (· = .keyword .endWord) := fun _ hk => hk
      refine .kind_ahead ahead fun k hk => ?_
      rw [hk]
      exact .pure ⟨hfound, rfl⟩
    | otherwise hw hbody =>
      refine .kind ?_
      rw [hw]
      refine .advance (hw ▸ rfl) fun _ => ?_
      rw [List.length_cons] at hbound
      have second := hbody.takes hstatement (by omega) [.endWord] (by decide)
      refine .bind_last (second.mono ?_) fun _ hsecond => .pure ⟨hfound, hsecond⟩
      rintro _ rfl
      exact ⟨.endWord, List.mem_cons_self, rfl⟩
    | elseIf hw hcond ht hthen' helse =>
      refine .kind ?_
      rw [hw]
      refine .advance (hw ▸ rfl) fun _ => ?_
      refine takes_expr_word hcond ht rfl fun cond hcond => ?_
      refine .requireKeyword ht fun _ => ?_
      have inner := takes_branches (n := n) hstatement helse hthen'
        (by simp only [List.length_append, List.length_cons] at hbound; omega)
        (by simp only [List.length_append, List.length_cons] at hn; omega)
      refine .bind_last inner ?_
      rintro ⟨innerThen, innerElse⟩ ⟨hinnerThen, hinnerElse⟩
      refine .previous fun _ => .pure ⟨hfound, ?_⟩
      change [Stmt.branch .origin cond.unplaced _ _] = [Stmt.branch .origin _ _ _]
      rw [hcond, hinnerThen, hinnerElse]

/-- `if` in a block. -/
theorem takes_ifStatement {thenBody elseBody : List Stmt} {cond : Expr} {t : Piece} (s : Span)
    (hstatement : Stmt.TakesUpTo statement bound) (hw : w.kind = .keyword .ifWord)
    (hcond : Expr.WrittenAt 0 cond cs) (ht : t.kind = .keyword .thenWord)
    (hthen : Stmt.Body around thenBody bs) (helse : Stmt.ElseWritten around elseBody ps)
    (hes : Closes .ifWord es) (hbound : bs.length + ps.length ≤ bound) :
    Takes (ifStatement (statement around)) (w :: (cs ++ t :: (bs ++ (ps ++ es)))) follow
      (Stmt.branch s cond thenBody elseBody).Same := by
  refine .requireKeyword hw fun _ => ?_
  refine takes_expr_word hcond ht rfl fun cond' hcond => ?_
  refine .requireKeyword ht fun _ => ?_
  refine .kind_ahead hthen.ahead fun k hk => ?_
  refine .if_true hk.ends ?_
  refine .remaining fun n hn => ?_
  rw [← List.append_assoc] at hn ⊢
  rw [List.length_append, List.length_append] at hn
  have read := takes_branches (n := n) hstatement helse hthen hbound (by omega)
  refine .bind read ?_ ?_
  · rintro ⟨innerThen, innerElse⟩ ⟨hinnerThen, hinnerElse⟩
    refine hes.takes (.previous fun _ => .pure ?_)
    change Stmt.branch .origin cond'.unplaced _ _ = Stmt.branch .origin _ _ _
    rw [hcond, hinnerThen, hinnerElse]
  · exact hes.ahead_end

/-! ## Loops -/

theorem takes_whileStatement {cond : Expr} (s : Span) (hstatement : Stmt.TakesUpTo statement bound)
    (hw : w.kind = .keyword .whileWord) (hcond : Expr.WrittenAt 0 cond cs)
    (hbody : Stmt.Body around body bs) (he : e.kind = .keyword .wendWord)
    (hbound : bs.length ≤ bound) :
    Takes (whileStatement (statement around)) (w :: (cs ++ (bs ++ [e]))) follow
      (Stmt.loop s cond body false false).Same := by
  refine .requireKeyword hw fun _ => ?_
  refine takes_expr_body hcond hbody fun cond' hcond => ?_
  have read := hbody.takes hstatement hbound [.wendWord] (by decide)
  refine .bind read (fun found hfound => ?_) (.of_kind he ⟨.wendWord, List.mem_cons_self, rfl⟩)
  refine .requireKeyword he fun _ => .previous fun _ => .pure ?_
  change Stmt.loop .origin cond'.unplaced _ _ _ = Stmt.loop .origin _ _ _ _
  rw [hcond, hfound]

/-- The condition at one end of a `do` loop. -/
theorem takes_loopCondition {cond : Expr} {untilTrue : Bool}
    (hw : w.kind = .keyword (if untilTrue then .untilWord else .whileWord))
    (hcond : Expr.WrittenAt 0 cond cs) :
    Takes loopCondition (w :: cs) TokenKind.StopsExpr
      fun found => ∃ cond', found = some (cond', untilTrue) ∧ cond.Same cond' := by
  cases untilTrue with
  | false =>
    refine .acceptKeyword hw ?_
    exact .bind_last hcond.takes fun cond' hcond => .pure ⟨cond', rfl, hcond⟩
  | true =>
    refine .acceptKeyword_of_ne (.of_kind hw nofun) ?_
    refine .acceptKeyword hw ?_
    exact .bind_last hcond.takes fun cond' hcond => .pure ⟨cond', rfl, hcond⟩

theorem takes_loopCondition_none :
    Takes loopCondition [] (fun kind => ∀ k, kind ≠ .keyword k) (· = none) := by
  refine .acceptKeyword_of_ne (fun _ hkind => hkind .whileWord) ?_
  exact .acceptKeyword_of_ne (fun _ hkind => hkind .untilWord) (.pure rfl)

theorem takes_doStatement_before {cond : Expr} {untilTrue : Bool} {u : Piece} (s : Span)
    (hstatement : Stmt.TakesUpTo statement bound) (hw : w.kind = .keyword .doWord)
    (hu : u.kind = .keyword (if untilTrue then .untilWord else .whileWord))
    (hcond : Expr.WrittenAt 0 cond cs) (hbody : Stmt.Body around body bs)
    (he : e.kind = .keyword .loopWord) (hbound : bs.length ≤ bound) :
    Takes (doStatement (statement around)) (w :: u :: (cs ++ (bs ++ [e]))) follow
      (Stmt.loop s cond body untilTrue false).Same := by
  refine .requireKeyword hw fun _ => ?_
  refine .bind (takes_loopCondition hu hcond) ?_ (hbody.ahead.imp fun _ h => h.stopsExpr)
  rintro _ ⟨cond', rfl, hcond⟩
  have read := hbody.takes hstatement hbound [.loopWord] (by decide)
  refine .bind read (fun found hfound => ?_) (.of_kind he ⟨.loopWord, List.mem_cons_self, rfl⟩)
  refine .requireKeyword he fun _ => .previous fun _ => .pure ?_
  change Stmt.loop .origin cond'.unplaced _ _ _ = Stmt.loop .origin _ _ _ _
  rw [hcond, hfound]

theorem takes_doStatement_behind {cond : Expr} {untilTrue : Bool} {u : Piece} (s : Span)
    (hstatement : Stmt.TakesUpTo statement bound) (hw : w.kind = .keyword .doWord)
    (hbody : Stmt.Body around body bs) (he : e.kind = .keyword .loopWord)
    (hu : u.kind = .keyword (if untilTrue then .untilWord else .whileWord))
    (hcond : Expr.WrittenAt 0 cond cs) (hbound : bs.length ≤ bound) :
    Takes (doStatement (statement around)) (w :: (bs ++ e :: u :: cs)) TokenKind.StopsExpr
      (Stmt.loop s cond body untilTrue true).Same := by
  refine .requireKeyword hw fun _ => ?_
  refine .bind_nil takes_loopCondition_none ?_ (hbody.ahead.imp fun _ h => h.not_keyword)
  rintro _ rfl
  have read := hbody.takes hstatement hbound [.loopWord] (by decide)
  refine .bind read (fun found hfound => ?_) (.of_kind he ⟨.loopWord, List.mem_cons_self, rfl⟩)
  refine .requireKeyword he fun _ => ?_
  refine .bind_last (takes_loopCondition hu hcond) ?_
  rintro _ ⟨cond', rfl, hcond⟩
  refine .previous fun _ => .pure ?_
  change Stmt.loop .origin cond'.unplaced _ _ _ = Stmt.loop .origin _ _ _ _
  rw [hcond, hfound]

/-! ## Counting -/

theorem takes_countedBody {n : Piece} (hstatement : Stmt.TakesUpTo statement bound)
    (hbody : Stmt.Body around body bs) (hn : n.kind = .keyword .nextWord)
    (hbound : bs.length ≤ bound) :
    Takes (countedBody (statement around)) (bs ++ [n]) TokenKind.Ends (Stmt.SameAll body) := by
  have read := hbody.takes hstatement hbound [.nextWord] (by decide)
  refine .bind read (fun found hfound => ?_) (.of_kind hn ⟨.nextWord, List.mem_cons_self, rfl⟩)
  refine .requireKeyword hn fun _ => ?_
  refine .accept_false (fun kind hkind => ?_) (.pure hfound)
  cases kind <;> first | rfl | cases hkind

theorem takes_forStatement_count {var : Name} {first last step : Expr} {v eq t m n : Piece}
    {fs ls ss : List Piece} (s : Span) (hstatement : Stmt.TakesUpTo statement bound)
    (hw : w.kind = .keyword .forWord) (hv : v.kind = .ident var) (heq : eq.kind = .symbol .eq)
    (hfirst : Expr.WrittenAt 0 first fs) (ht : t.kind = .keyword .toWord)
    (hlast : Expr.WrittenAt 0 last ls) (hm : m.kind.isWord "step" = true)
    (hstep : Expr.WrittenAt 0 step ss) (hbody : Stmt.Body around body bs)
    (hn : n.kind = .keyword .nextWord) (hbound : bs.length ≤ bound) :
    Takes (forStatement (statement around))
      (w :: v :: eq :: (fs ++ t :: (ls ++ m :: (ss ++ (bs ++ [n]))))) TokenKind.Ends
      (Stmt.count s var first last step body).Same := by
  refine .requireKeyword hw fun _ => ?_
  refine .acceptKeyword_of_ne (.of_kind hv nofun) ?_
  refine .identifier hv (.requireSymbol heq fun _ => ?_)
  refine takes_expr_word hfirst ht rfl fun first' hfirst => ?_
  refine .requireKeyword ht fun _ => ?_
  refine .bind hlast.takes (fun last' hlast => ?_) (TokenKind.stopsExpr_of_isWord hm)
  refine .acceptWord hm ?_
  refine takes_expr_body hstep hbody fun step' hstep => ?_
  refine .bind_last (takes_countedBody hstatement hbody hn hbound) fun found hfound => ?_
  refine .previous fun _ => .pure ?_
  change Stmt.count .origin var first'.unplaced last'.unplaced step'.unplaced _ = _
  rw [hfirst, hlast, hstep, hfound]
  rfl

theorem takes_forStatement_each {var : Name} {collection : Expr} {c v i n : Piece} (s : Span)
    (hstatement : Stmt.TakesUpTo statement bound) (hw : w.kind = .keyword .forWord)
    (hc : c.kind = .keyword .eachWord) (hv : v.kind = .ident var) (hi : i.kind.isWord "in" = true)
    (hcollection : Expr.WrittenAt 0 collection cs) (hbody : Stmt.Body around body bs)
    (hn : n.kind = .keyword .nextWord) (hbound : bs.length ≤ bound) :
    Takes (forStatement (statement around)) (w :: c :: v :: i :: (cs ++ (bs ++ [n])))
      TokenKind.Ends (Stmt.forEach s var collection body).Same := by
  refine .requireKeyword hw fun _ => ?_
  refine .acceptKeyword hc ?_
  refine .identifier hv (.requireWord hi fun _ => ?_)
  refine takes_expr_body hcollection hbody fun collection' hcollection => ?_
  refine .bind_last (takes_countedBody hstatement hbody hn hbound) fun found hfound => ?_
  refine .previous fun _ => .pure ?_
  change Stmt.forEach .origin var collection'.unplaced _ = Stmt.forEach .origin _ _ _
  rw [hcollection, hfound]

/-! ## Selections -/

/-- No condition is taken for the `else` of a last case. -/
theorem startsOther_of_conditions {conditions : List Expr}
    (h : Separated (Expr.WrittenAt 0) conditions cs) : Expr.StartsOther cs := by
  cases h with
  | one h => exact h.startsOther
  | cons h => exact h.startsOther.append _

/-- What follows a case. -/
theorem aheadOfCases {cases : List Case} (h : Stmt.CasesWritten around cases ps) :
    Ahead ps (· = .keyword .endWord) (OneOf [.caseWord, .endWord]) := by
  cases h with
  | nil =>
    rintro _ rfl
    exact ⟨.endWord, by decide, rfl⟩
  | cons hw | otherwise hw => exact .of_kind hw ⟨.caseWord, List.mem_cons_self, rfl⟩

/-- **The cases of a selection are read.**  Separators stand in front of the first case only, because
the body of a case takes those behind it. -/
theorem takes_cases (hstatement : Stmt.TakesUpTo statement bound) :
    ∀ {found : List Case} {ps seps : List Piece} {n : Nat}, Stmt.CasesWritten around found ps →
      ps.length ≤ bound → (∀ p ∈ seps, p.kind.IsJoint) → seps.length + ps.length ≤ n →
        Takes (cases (statement around) n) (seps ++ ps) (· = .keyword .endWord)
          fun found' => Stmt.unplacedCases found' = Stmt.unplacedCases found
  | _, ps, seps, 0, h, _, _, hn => by
    obtain rfl : seps = [] := List.length_eq_zero_iff.mp (by omega)
    obtain rfl : ps = [] := List.length_eq_zero_iff.mp (by omega)
    cases h
    exact .pure rfl
  | _, _, _, n + 1, .nil, _, hseps, _ => by
    refine Stmt.takes_dropSeparators hseps Stmt.stays_of_end ?_
    refine .kind_ahead (fun _ hk => hk) fun k hk => ?_
    rw [hk]
    exact .pure rfl
  | _, _, seps, n + 1, .cons hw hconditions hbody further, hps, hseps, hn => by
    simp only [List.length_append, List.length_cons] at hps hn
    refine Stmt.takes_dropSeparators hseps (.of_kind hw (Stmt.stays_keyword .caseWord)) ?_
    refine .kind ?_
    rw [hw]
    refine .requireKeyword hw fun _ => ?_
    obtain ⟨c, cs, rfl, hc⟩ := startsOther_of_conditions hconditions
    refine .acceptKeyword_of_ne hc ?_
    have conditions : Takes (some <$> commaList Expr.parse) (c :: cs) TokenKind.Ends _ :=
      (Expr.takes_separated hconditions fun _ hk => ⟨hk.stopsExpr, hk.ne_comma⟩).map
    refine .bind conditions ?_ (hbody.ahead.imp fun _ h => h.ends)
    rintro _ ⟨conditions', hconditions', rfl⟩
    have read := hbody.takes hstatement (by omega) [.caseWord, .endWord] (by decide)
    refine .bind read (fun body' hbody' => ?_) (aheadOfCases further)
    have rest : Takes _ ([] ++ _) _ _ :=
      takes_cases (n := n) hstatement further (by omega) nofun (by rw [List.length_nil]; omega)
    refine .bind_last rest fun rest' hrest' => .pure ?_
    change Case.mk (some _) _ :: _ = Case.mk (some _) _ :: _
    rw [Expr.map_unplaced_of_same hconditions', hbody', hrest']
  | _, _, seps, n + 1, .otherwise hw he hbody further, hps, hseps, hn => by
    simp only [List.length_append, List.length_cons] at hps hn
    refine Stmt.takes_dropSeparators hseps (.of_kind hw (Stmt.stays_keyword .caseWord)) ?_
    refine .kind ?_
    rw [hw]
    refine .requireKeyword hw fun _ => ?_
    refine .acceptKeyword he (.pure_bind ?_)
    have read := hbody.takes hstatement (by omega) [.caseWord, .endWord] (by decide)
    refine .bind read (fun body' hbody' => ?_) (aheadOfCases further)
    have rest : Takes _ ([] ++ _) _ _ :=
      takes_cases (n := n) hstatement further (by omega) nofun (by rw [List.length_nil]; omega)
    refine .bind_last rest fun rest' hrest' => .pure ?_
    change Case.mk none _ :: _ = Case.mk none _ :: _
    rw [hbody', hrest']

theorem takes_selectStatement {subject : Expr} {found : List Case} {c : Piece} {ss run : List Piece}
    (s : Span) (hstatement : Stmt.TakesUpTo statement bound) (hw : w.kind = .keyword .selectWord)
    (hc : c.kind = .keyword .caseWord) (hsubject : Expr.WrittenAt 0 subject ss) (hrun : IsRun run)
    (h : Stmt.CasesWritten around found ps) (hes : Closes .selectWord es)
    (hbound : ps.length ≤ bound) :
    Takes (selectStatement (statement around)) (w :: c :: (ss ++ (run ++ (ps ++ es)))) follow
      (Stmt.select s subject found).Same := by
  refine .requireKeyword hw fun _ => .requireKeyword hc fun _ => ?_
  refine .bind hsubject.takes (fun subject' hsubject => ?_) (hrun.ahead.imp fun _ h => h.stopsExpr)
  refine .remaining fun n hn => ?_
  rw [List.length_append, List.length_append] at hn
  have read := takes_cases (n := n) hstatement h hbound hrun.joints (by omega)
  rw [← List.append_assoc]
  refine .bind read (fun found' hfound => ?_) hes.ahead_end
  refine hes.takes (.previous fun _ => .pure ?_)
  change Stmt.select .origin subject'.unplaced _ = Stmt.select .origin _ _
  rw [hsubject, hfound]

theorem takes_withStatement {object : Expr} {os : List Piece} (s : Span)
    (hstatement : Stmt.TakesUpTo statement bound) (hw : w.kind = .keyword .withWord)
    (hobject : Expr.WrittenAt 0 object os) (hbody : Stmt.Body around body bs)
    (hes : Closes .withWord es) (hbound : bs.length ≤ bound) :
    Takes (withStatement (statement around)) (w :: (os ++ (bs ++ es))) follow
      (Stmt.withObject s object body).Same := by
  refine .requireKeyword hw fun _ => ?_
  refine takes_expr_body hobject hbody fun object' hobject => ?_
  have read := hbody.takes hstatement hbound [.endWord] (by decide)
  refine .bind read (fun found hfound => ?_) (hes.ahead List.mem_cons_self)
  refine hes.takes (.previous fun _ => .pure ?_)
  change Stmt.withObject .origin object'.unplaced _ = Stmt.withObject .origin _ _
  rw [hobject, hfound]

end Parse

end PageScript
