import PageScript.Proofs.Syntax.Abreast.Simple

/-!
# Proofs/Syntax/Abreast/Blocks — blocks, branches and loops side by side

Two readers of single statements that are abreast make readers of lists of statements that are
abreast, and of the statements that have such lists for bodies.  Every statement takes a token, so the
loops never run out of their counts.
-/

namespace PageScript

variable {V : Sight} {extra n bound bound' : Nat} {c d : Cursor} {st st' : Parse Stmt}

namespace Parse

/-! ## Lists of statements -/

theorem abreast_statementEnd (h : c.Abreast V extra d) :
    Abreast V extra 0 Eq statementEnd statementEnd c d :=
  abreast_kind h fun _ _ => .ite (fun _ => abreast_pure h rfl) fun _ => abreast_expected h _

theorem seenAll_cons {first first' : Stmt} {rest rest' : List Stmt} (same : first.SeenAs V first')
    (further : Stmt.AllSeenAs V rest rest') :
    Stmt.AllSeenAs V (first :: rest) (first' :: rest') :=
  congrArg₂ List.cons same further

theorem abreast_statements (stop : TokenKind → Bool)
    (inner : AbreastWithin V extra n (Stmt.SeenAs V) st st') :
    ∀ {bound bound' : Nat} {c d : Cursor}, c.Abreast V extra d → c.rest.length ≤ n →
      c.rest.length ≤ bound → c.rest.length ≤ bound' →
        Abreast V extra 0 (Stmt.AllSeenAs V) (statements st stop bound)
          (statements st' stop bound') c d := by
  intro bound
  induction bound with
  | zero =>
    intro _ _ _ h _ hbound
    exact absurd h.tokens.length_pos (Nat.not_lt.mpr hbound)
  | succ bound ih =>
    intro bound' c d h hn hbound hbound'
    obtain ⟨bound', rfl⟩ := exists_succ_of_abreast h hbound'
    refine (abreast_dropSeparators h).bindSame (j := 0) fun _ c₁ d₁ onward => ?_
    refine abreast_kind onward.abreast fun k _ => .ite (fun _ => abreast_pure onward.abreast rfl)
      fun _ => ?_
    have := onward.taken.length_le
    refine ((inner onward.abreast (by omega)).bind (j := 0)
      fun first first' c₂ d₂ same onward => ?_).loosen
    have := onward.taken.length_le
    refine (abreast_statementEnd onward.abreast).bindSame (j := 0) fun _ c₃ d₃ onward => ?_
    have := onward.taken.length_le
    exact (ih onward.abreast (by omega) (by omega) (by omega)).bind fun _ _ _ _ further onward =>
      abreast_pure onward.abreast (seenAll_cons same further)

theorem abreast_block (stop : TokenKind → Bool)
    (inner : AbreastWithin V extra n (Stmt.SeenAs V) st st') (h : c.Abreast V extra d)
    (hn : c.rest.length ≤ n) :
    Abreast V extra 0 (Stmt.AllSeenAs V) (block st stop) (block st' stop) c d :=
  abreast_remaining h fun _ _ hm hm' => abreast_statements stop inner h hn hm hm'

theorem abreast_blockUntil (words : List Keyword)
    (inner : AbreastWithin V extra n (Stmt.SeenAs V) st st') (h : c.Abreast V extra d)
    (hn : c.rest.length ≤ n) :
    Abreast V extra 0 (Stmt.AllSeenAs V) (blockUntil st words) (blockUntil st' words) c d :=
  abreast_block _ inner h hn

theorem abreast_lineStatements (inner : AbreastWithin V extra n (Stmt.SeenAs V) st st') :
    ∀ {bound bound' : Nat} {c d : Cursor}, c.Abreast V extra d → c.rest.length ≤ n →
      c.rest.length ≤ bound → c.rest.length ≤ bound' →
        Abreast V extra 1 (Stmt.AllSeenAs V) (lineStatements st bound)
          (lineStatements st' bound') c d := by
  intro bound
  induction bound with
  | zero =>
    intro _ _ _ h _ hbound
    exact absurd h.tokens.length_pos (Nat.not_lt.mpr hbound)
  | succ bound ih =>
    intro bound' c d h hn hbound hbound'
    obtain ⟨bound', rfl⟩ := exists_succ_of_abreast h hbound'
    refine (inner h hn).bind (j := 0) fun first first' c₁ d₁ same onward => ?_
    have single : Stmt.AllSeenAs V [first] [first'] := seenAll_cons same rfl
    refine abreast_accept onward.abreast isProper_of_isSymbol (fun c₂ d₂ _ onward' => ?_)
      fun _ => abreast_pure onward.abreast single
    refine abreast_kind onward'.abreast fun k _ =>
      .ite (fun _ => abreast_pure onward'.abreast single) fun _ => ?_
    have := (onward.trans onward').taken.length_le
    exact ((ih onward'.abreast (by omega) (by omega) (by omega)).bind (j := 0)
      fun _ _ _ _ further onward => abreast_pure onward.abreast (seenAll_cons same further)).loosen

theorem abreast_line (inner : AbreastWithin V extra n (Stmt.SeenAs V) st st')
    (h : c.Abreast V extra d) (hn : c.rest.length ≤ n) :
    Abreast V extra 1 (Stmt.AllSeenAs V) (line st) (line st') c d :=
  abreast_remaining h fun _ _ hm hm' => abreast_lineStatements inner h hn hm hm'

/-! ## Page content -/

theorem seenAs_writing {s s' : Span} (hs : s.SeenAs V s') {value value' : Expr}
    (same : value.SeenAs V value') : (writing value s).SeenAs V (writing value' s') := by
  simp only [writing, Stmt.SeenAs, Stmt.seen, Expr.seen, Expr.seenArgs, Arg.seen, hs, same]

/-- A token is taken where page content stands. -/
theorem abreast_content : ∀ {bound bound' : Nat} {c d : Cursor}, c.Abreast V extra d →
    c.rest.length ≤ bound → c.rest.length ≤ bound' →
      Abreast V extra (if c.kind.isMarkup then 1 else 0) (Stmt.AllSeenAs V) (content bound)
        (content bound') c d := by
  intro bound
  induction bound with
  | zero =>
    intro _ _ _ h hbound
    exact absurd h.tokens.length_pos (Nat.not_lt.mpr hbound)
  | succ bound ih =>
    intro bound' c d h hbound hbound'
    obtain ⟨bound', rfl⟩ := exists_succ_of_abreast h hbound'
    refine abreast_span h fun s s' hs => abreast_kind h fun k hk => ?_
    rw [hk]
    -- Every piece takes a token, and more of them may follow.
    have further {first first' : Stmt} (same : first.SeenAs V first') {c' d' : Cursor}
        (onward : Cursor.Onward V extra 1 c d c' d') :
        Abreast V extra 0 (Stmt.AllSeenAs V) (content bound >>= fun rest => pure (first :: rest))
          (content bound' >>= fun rest => pure (first' :: rest)) c' d' := by
      have := onward.taken.length_le
      refine ((ih onward.abreast (by omega) (by omega)).bind (j := 0) fun _ _ _ _ rest onward => ?_).loosen
      exact abreast_pure onward.abreast (seenAll_cons same rest)
    cases k with
    | text value =>
      have same : (Expr.literal s (.string value)).SeenAs V (.literal s' (.string value)) :=
        congrArg (Expr.literal · _) hs
      exact (abreast_advance h (hk ▸ rfl)).bind fun _ _ _ _ _ onward =>
        further (seenAs_writing hs same) onward
    | includeFile path isVirtual =>
      have same : (Stmt.includeFile s ⟨path, isVirtual⟩ none).SeenAs V (.includeFile s' _ none) :=
        congrArg (Stmt.includeFile · _ none) hs
      exact (abreast_advance h (hk ▸ rfl)).bind fun _ _ _ _ _ onward => further same onward
    | openPrint =>
      refine (abreast_advance h (hk ▸ rfl)).bind (j := 0) fun _ _ _ _ _ onward => ?_
      refine ((Expr.abreast_parse onward.abreast).bind (j := 0)
        fun value value' c' d' same onward' => ?_).loosen
      -- The delimiter may be missing at the end of the page.
      have behind {c'' d'' : Cursor} {i : Nat} (closed : Bool)
          (onward'' : Cursor.Onward V extra i c' d' c'' d'') :
          Abreast V extra 0 (Stmt.AllSeenAs V)
            (kind >>= fun found => if (!closed && !found.isEnd) = true then expected "`%>`" else
              previous >>= fun p => content bound >>= fun rest =>
                pure (writing value (s.merge p) :: rest))
            (kind >>= fun found => if (!closed && !found.isEnd) = true then expected "`%>`" else
              previous >>= fun p => content bound' >>= fun rest =>
                pure (writing value' (s'.merge p) :: rest)) c'' d'' := by
        refine abreast_kind onward''.abreast fun k _ =>
          .ite (fun _ => abreast_expected onward''.abreast _) fun _ => ?_
        exact abreast_previous onward''.abreast fun _ _ hp => further
          (seenAs_writing (V.merge hs hp) same)
          (((onward.trans onward').trans onward'').mono (by omega))
      refine abreast_accept onward'.abreast (fun k hk => ?_)
        (fun _ _ _ onward'' => behind true onward'') fun _ => behind false (.refl onward'.abreast)
      cases k with
      | closeCode => rfl
      | _ => nomatch hk
    | _ => exact abreast_pure h rfl

theorem abreast_pageContent (h : c.Abreast V extra d) (markup : c.kind.isMarkup = true) :
    Abreast V extra 1 (Stmt.SeenAs V) pageContent pageContent c d := by
  refine abreast_span h fun s s' hs => abreast_remaining h fun m m' hm hm' => ?_
  have read := abreast_content h hm hm'
  rw [markup] at read
  refine read.bind (j := 0) fun body body' _ _ same onward => abreast_previous onward.abreast fun _ _ hp => ?_
  refine abreast_pure onward.abreast ?_
  rw [Stmt.SeenAs, Stmt.seen, Stmt.seen, V.merge hs hp, same]

/-! ## Branches and loops -/

theorem abreast_branches (inner : AbreastWithin V extra n (Stmt.SeenAs V) st st') :
    ∀ {bound bound' : Nat} {c d : Cursor}, c.Abreast V extra d → c.rest.length ≤ n →
      c.rest.length ≤ bound → c.rest.length ≤ bound' →
        Abreast V extra 0 (fun x y => Stmt.AllSeenAs V x.1 y.1 ∧ Stmt.AllSeenAs V x.2 y.2)
          (branches st bound) (branches st' bound') c d := by
  intro bound
  induction bound with
  | zero =>
    intro _ _ _ h _ hbound
    exact absurd h.tokens.length_pos (Nat.not_lt.mpr hbound)
  | succ bound ih =>
    intro bound' c d h hn hbound hbound'
    obtain ⟨bound', rfl⟩ := exists_succ_of_abreast h hbound'
    refine (abreast_blockUntil _ inner h hn).bind (j := 0)
      fun thenBody thenBody' c₁ d₁ sameThen onward => ?_
    have := onward.taken.length_le
    refine abreast_kind onward.abreast fun k hk => ?_
    split
    · refine ((abreast_advance onward.abreast (hk ▸ rfl)).bind (j := 0)
        fun s s' c₂ d₂ hs onward => ?_).loosen
      refine ((Expr.abreast_parse onward.abreast).bind (j := 0)
        fun cond cond' c₃ d₃ sameCond onward' => ?_).loosen
      refine ((abreast_requireKeyword .thenWord onward'.abreast).bind (j := 0)
        fun _ _ c₄ d₄ _ onward'' => ?_).loosen
      have := ((onward.trans onward').trans onward'').taken.length_le
      refine (ih onward''.abreast (by omega) (by omega) (by omega)).bind (j := 0)
        fun x y _ _ same onward => abreast_previous onward.abreast fun p p' hp => ?_
      refine abreast_pure onward.abreast ⟨sameThen, seenAll_cons ?_ rfl⟩
      rw [Stmt.SeenAs, Stmt.seen, Stmt.seen, V.merge hs hp, sameCond, same.1, same.2]
    · refine ((abreast_advance onward.abreast (hk ▸ rfl)).bind (j := 0)
        fun _ _ c₂ d₂ _ onward => ?_).loosen
      have := onward.taken.length_le
      exact (abreast_blockUntil _ inner onward.abreast (by omega)).bind
        fun _ _ _ _ sameElse onward => abreast_pure onward.abreast ⟨sameThen, sameElse⟩
    · exact abreast_pure onward.abreast ⟨sameThen, rfl⟩

/-- Behind a first token fewer tokens are left. -/
theorem length_le_of_onward {i : Nat} {c' d' : Cursor} (hn : c.rest.length ≤ n + 1) (hi : 1 ≤ i)
    (onward : Cursor.Onward V extra i c d c' d') : c'.rest.length ≤ n := by
  have := onward.taken.length_le
  omega

theorem abreast_ifStatement (inner : AbreastWithin V extra n (Stmt.SeenAs V) st st')
    (h : c.Abreast V extra d) (hn : c.rest.length ≤ n + 1) :
    Abreast V extra 1 (Stmt.SeenAs V) (ifStatement st) (ifStatement st') c d := by
  refine (abreast_requireKeyword .ifWord h).bind (j := 0) fun s s' c₁ d₁ hs onward₁ => ?_
  refine ((Expr.abreast_parse onward₁.abreast).bind (j := 0)
    fun cond cond' c₂ d₂ sameCond onward₂ => ?_).loosen
  refine ((abreast_requireKeyword .thenWord onward₂.abreast).bind (j := 0)
    fun _ _ c₃ d₃ _ onward₃ => ?_).loosen
  have hn := length_le_of_onward hn (by decide) ((onward₁.trans onward₂).trans onward₃)
  have branch {thenBody thenBody' elseBody elseBody' : List Stmt}
      (sameThen : Stmt.AllSeenAs V thenBody thenBody')
      (sameElse : Stmt.AllSeenAs V elseBody elseBody') {c' d' : Cursor}
      (h : c'.Abreast V extra d') : Abreast V extra 0 (Stmt.SeenAs V)
        (previous >>= fun p => pure (Stmt.branch (s.merge p) cond thenBody elseBody))
        (previous >>= fun p => pure (Stmt.branch (s'.merge p) cond' thenBody' elseBody')) c' d' :=
    abreast_previous h fun _ _ hp => abreast_pure h <| by
      rw [Stmt.SeenAs, Stmt.seen, Stmt.seen, V.merge hs hp, sameCond, sameThen, sameElse]
  refine abreast_kind onward₃.abreast fun k _ => .ite (fun _ => ?_) fun _ => ?_
  · refine abreast_remaining onward₃.abreast fun m m' hm hm' => ?_
    refine (abreast_branches inner onward₃.abreast hn hm hm').bind (j := 0)
      fun x y _ _ same onward => ?_
    refine ((abreast_requireKeyword .endWord onward.abreast).bind (j := 0)
      fun _ _ _ _ _ onward => ?_).loosen
    exact ((abreast_requireKeyword .ifWord onward.abreast).bind fun _ _ _ _ _ onward =>
      branch same.1 same.2 onward.abreast).loosen
  · refine ((abreast_line inner onward₃.abreast hn).bind (j := 0)
      fun thenBody thenBody' c₄ d₄ sameThen onward => ?_).loosen
    have := onward.taken.length_le
    refine abreast_accept onward.abreast isProper_of_isKeyword (fun c₅ d₅ _ onward' => ?_)
      fun _ => branch sameThen rfl onward.abreast
    have := onward'.taken.length_le
    exact ((abreast_line inner onward'.abreast (by omega)).bind fun _ _ _ _ sameElse onward =>
      branch sameThen sameElse onward.abreast).loosen

/-- A body up to some words, and the word behind it. -/
theorem abreast_bodyThen {γ δ : Type} {R : γ → δ → Prop} {f : List Stmt → Span → Parse γ}
    {g : List Stmt → Span → Parse δ} (words : List Keyword) (k : Keyword)
    (inner : AbreastWithin V extra n (Stmt.SeenAs V) st st') (h : c.Abreast V extra d)
    (hn : c.rest.length ≤ n)
    (hnext : ∀ body body' s s' c' d', Stmt.AllSeenAs V body body' →
      Cursor.Onward V extra 1 c d c' d' → Abreast V extra 0 R (f body s) (g body' s') c' d') :
    Abreast V extra 0 R (blockUntil st words >>= fun body => requireKeyword k >>= f body)
      (blockUntil st' words >>= fun body => requireKeyword k >>= g body) c d :=
  (abreast_blockUntil words inner h hn).bind (j := 0) fun body body' _ _ same onward =>
    ((abreast_requireKeyword k onward.abreast).bind (j := 0) fun s s' c' d' _ onward' =>
      hnext body body' s s' c' d' same ((onward.trans onward').mono (by omega))).loosen

theorem abreast_whileStatement (inner : AbreastWithin V extra n (Stmt.SeenAs V) st st')
    (h : c.Abreast V extra d) (hn : c.rest.length ≤ n + 1) :
    Abreast V extra 1 (Stmt.SeenAs V) (whileStatement st) (whileStatement st') c d := by
  refine (abreast_requireKeyword .whileWord h).bind (j := 0) fun s s' c₁ d₁ hs onward₁ => ?_
  refine ((Expr.abreast_parse onward₁.abreast).bind (j := 0)
    fun cond cond' c₂ d₂ sameCond onward₂ => ?_).loosen
  refine abreast_bodyThen _ _ inner onward₂.abreast
    (length_le_of_onward hn (by decide) (onward₁.trans onward₂)) fun body body' _ _ _ _ same onward => ?_
  refine abreast_previous onward.abreast fun _ _ hp => abreast_pure onward.abreast ?_
  rw [Stmt.SeenAs, Stmt.seen, Stmt.seen, V.merge hs hp, sameCond, same]

/-- Conditions of loops that look alike and end them in the same way, or none on both sides. -/
abbrev ConditionsAbreast (V : Sight) : Option (Expr × Bool) → Option (Expr × Bool) → Prop :=
  Option.Rel fun x y => x.1.SeenAs V y.1 ∧ x.2 = y.2

theorem abreast_loopCondition (h : c.Abreast V extra d) :
    Abreast V extra 0 (ConditionsAbreast V) loopCondition loopCondition c d := by
  have condition (untilTrue : Bool) {c d : Cursor} (h : c.Abreast V extra d) :
      Abreast V extra 0 (ConditionsAbreast V) (Expr.parse >>= fun cond => pure (some (cond, untilTrue)))
        (Expr.parse >>= fun cond => pure (some (cond, untilTrue))) c d :=
    ((Expr.abreast_parse h).bind (j := 0) fun _ _ _ _ same onward =>
      abreast_pure onward.abreast (.some ⟨same, rfl⟩)).loosen
  refine abreast_accept h isProper_of_isKeyword
    (fun _ _ _ onward => condition false onward.abreast) fun _ => ?_
  exact abreast_accept h isProper_of_isKeyword
    (fun _ _ _ onward => condition true onward.abreast) fun _ => abreast_pure h .none

theorem abreast_doStatement (inner : AbreastWithin V extra n (Stmt.SeenAs V) st st')
    (h : c.Abreast V extra d) (hn : c.rest.length ≤ n + 1) :
    Abreast V extra 1 (Stmt.SeenAs V) (doStatement st) (doStatement st') c d := by
  refine (abreast_requireKeyword .doWord h).bind (j := 0) fun s s' c₁ d₁ hs onward₁ => ?_
  refine (abreast_loopCondition onward₁.abreast).bind (j := 0)
    fun before before' c₂ d₂ sameBefore onward₂ => ?_
  refine abreast_bodyThen _ _ inner onward₂.abreast
    (length_le_of_onward hn (by decide) (onward₁.trans onward₂))
    fun body body' _ _ c₃ d₃ same onward => ?_
  have loop {cond cond' : Expr} (sameCond : cond.SeenAs V cond') (untilTrue testsAfter : Bool)
      {p p' : Span} (hp : p.SeenAs V p') :
      (Stmt.loop (s.merge p) cond body untilTrue testsAfter).SeenAs V
        (.loop (s'.merge p') cond' body' untilTrue testsAfter) := by
    rw [Stmt.SeenAs, Stmt.seen, Stmt.seen, V.merge hs hp, sameCond, same]
  cases sameBefore with
  | @some x y sameCond =>
    obtain ⟨cond, untilTrue⟩ := x
    obtain ⟨cond', untilTrue'⟩ := y
    obtain ⟨sameCond, rfl⟩ := sameCond
    exact abreast_previous onward.abreast fun _ _ hp =>
      abreast_pure onward.abreast (loop sameCond untilTrue false hp)
  | none =>
    refine (abreast_loopCondition onward.abreast).bind (j := 0)
      fun behind behind' _ _ sameBehind onward => ?_
    refine abreast_previous onward.abreast fun p p' hp => ?_
    cases sameBehind with
    | @some x y sameCond =>
      obtain ⟨cond, untilTrue⟩ := x
      obtain ⟨cond', untilTrue'⟩ := y
      obtain ⟨sameCond, rfl⟩ := sameCond
      exact abreast_pure onward.abreast (loop sameCond untilTrue true hp)
    | none =>
      have always : (Expr.literal s (.boolean true)).SeenAs V (.literal s' (.boolean true)) :=
        congrArg (Expr.literal · _) hs
      exact abreast_pure onward.abreast (loop always false false hp)

theorem abreast_countedBody (inner : AbreastWithin V extra n (Stmt.SeenAs V) st st')
    (h : c.Abreast V extra d) (hn : c.rest.length ≤ n) :
    Abreast V extra 0 (Stmt.AllSeenAs V) (countedBody st) (countedBody st') c d := by
  refine abreast_bodyThen _ _ inner h hn fun body body' _ _ c₁ d₁ same onward => ?_
  refine abreast_accept onward.abreast (fun k hk => ?_)
    (fun _ _ _ onward => abreast_pure onward.abreast same) fun _ => abreast_pure onward.abreast same
  cases k with
  | ident => rfl
  | _ => nomatch hk

theorem abreast_forStatement (inner : AbreastWithin V extra n (Stmt.SeenAs V) st st')
    (h : c.Abreast V extra d) (hn : c.rest.length ≤ n + 1) :
    Abreast V extra 1 (Stmt.SeenAs V) (forStatement st) (forStatement st') c d := by
  refine (abreast_requireKeyword .forWord h).bind (j := 0) fun s s' c₁ d₁ hs onward₁ => ?_
  refine abreast_accept onward₁.abreast isProper_of_isKeyword (fun c₂ d₂ _ onward₂ => ?_) fun _ => ?_
  · refine ((abreast_identifier onward₂.abreast).bindSame (j := 0)
      fun var c₃ d₃ onward₃ => ?_).loosen
    refine ((abreast_requireWord "in" onward₃.abreast).bind (j := 0)
      fun _ _ c₄ d₄ _ onward₄ => ?_).loosen
    refine ((Expr.abreast_parse onward₄.abreast).bind (j := 0)
      fun collection collection' c₅ d₅ sameCollection onward₅ => ?_).loosen
    have onward := (((onward₁.trans onward₂).trans onward₃).trans onward₄).trans onward₅
    refine (abreast_countedBody inner onward₅.abreast
      (length_le_of_onward hn (by decide) onward)).bind (j := 0) fun body body' _ _ same onward => ?_
    refine abreast_previous onward.abreast fun _ _ hp => abreast_pure onward.abreast ?_
    rw [Stmt.SeenAs, Stmt.seen, Stmt.seen, V.merge hs hp, sameCollection, same]
  · refine ((abreast_identifier onward₁.abreast).bindSame (j := 0)
      fun var c₂ d₂ onward₂ => ?_).loosen
    refine ((abreast_requireSymbol .eq onward₂.abreast).bind (j := 0)
      fun _ _ c₃ d₃ _ onward₃ => ?_).loosen
    refine ((Expr.abreast_parse onward₃.abreast).bind (j := 0)
      fun first first' c₄ d₄ sameFirst onward₄ => ?_).loosen
    refine ((abreast_requireKeyword .toWord onward₄.abreast).bind (j := 0)
      fun _ _ c₅ d₅ _ onward₅ => ?_).loosen
    refine ((Expr.abreast_parse onward₅.abreast).bind (j := 0)
      fun last last' c₆ d₆ sameLast onward₆ => ?_).loosen
    have onward := ((((onward₁.trans onward₂).trans onward₃).trans onward₄).trans onward₅).trans
      onward₆
    have counted {step step' : Expr} (sameStep : step.SeenAs V step') {c' d' : Cursor} {i : Nat}
        (onward' : Cursor.Onward V extra i c₆ d₆ c' d') : Abreast V extra 0 (Stmt.SeenAs V)
          (countedBody st >>= fun body => previous >>= fun p =>
            pure (Stmt.count (s.merge p) var first last step body))
          (countedBody st' >>= fun body => previous >>= fun p =>
            pure (Stmt.count (s'.merge p) var first' last' step' body)) c' d' := by
      have hn := length_le_of_onward hn (by omega) (onward.trans onward')
      refine (abreast_countedBody inner onward'.abreast hn).bind (j := 0)
        fun body body' _ _ same onward => abreast_previous onward.abreast fun _ _ hp => ?_
      refine abreast_pure onward.abreast ?_
      rw [Stmt.SeenAs, Stmt.seen, Stmt.seen, V.merge hs hp, sameFirst, sameLast, sameStep, same]
    refine abreast_accept onward₆.abreast isProper_of_isWord (fun _ _ _ onward' => ?_) fun _ => ?_
    · exact ((Expr.abreast_parse onward'.abreast).bind (j := 0) fun _ _ _ _ sameStep onward'' =>
        counted sameStep (onward'.trans onward'')).loosen
    · have one : (Expr.literal last.span (.number 1)).SeenAs V (.literal last'.span (.number 1)) :=
        congrArg (Expr.literal · _) sameLast.span
      exact counted one (.refl onward₆.abreast)

/-- Conditions of cases that look alike, or the ones of `else` on both sides. -/
abbrev CasesAbreast (V : Sight) (x y : Option (List Expr)) : Prop :=
  x.map (List.map (Expr.seen V)) = y.map (List.map (Expr.seen V))

theorem abreast_cases (inner : AbreastWithin V extra n (Stmt.SeenAs V) st st') :
    ∀ {bound bound' : Nat} {c d : Cursor}, c.Abreast V extra d → c.rest.length ≤ n →
      c.rest.length ≤ bound → c.rest.length ≤ bound' →
        Abreast V extra 0 (fun x y => Stmt.seenCases V x = Stmt.seenCases V y) (cases st bound)
          (cases st' bound') c d := by
  intro bound
  induction bound with
  | zero =>
    intro _ _ _ h _ hbound
    exact absurd h.tokens.length_pos (Nat.not_lt.mpr hbound)
  | succ bound ih =>
    intro bound' c d h hn hbound hbound'
    obtain ⟨bound', rfl⟩ := exists_succ_of_abreast h hbound'
    refine (abreast_dropSeparators h).bindSame (j := 0) fun _ c₁ d₁ onward₁ => ?_
    refine abreast_kind onward₁.abreast fun k _ => .ite (fun _ => abreast_pure onward₁.abreast rfl)
      fun _ => ?_
    refine ((abreast_requireKeyword .caseWord onward₁.abreast).bind (j := 0)
      fun _ _ c₂ d₂ _ onward₂ => ?_).loosen
    have further {conditions conditions' : Option (List Expr)}
        (sameConditions : CasesAbreast V conditions conditions') {c' d' : Cursor} {i : Nat}
        (onward : Cursor.Onward V extra i c₂ d₂ c' d') :
        Abreast V extra 0 (fun x y => Stmt.seenCases V x = Stmt.seenCases V y)
          (blockUntil st [.caseWord, .endWord] >>= fun body => cases st bound >>= fun rest =>
            pure (.mk conditions body :: rest))
          (blockUntil st' [.caseWord, .endWord] >>= fun body => cases st' bound' >>= fun rest =>
            pure (.mk conditions' body :: rest)) c' d' := by
      have := ((onward₁.trans onward₂).trans onward).taken.length_le
      refine (abreast_blockUntil _ inner onward.abreast (by omega)).bind (j := 0)
        fun body body' _ _ same onward => ?_
      have := onward.taken.length_le
      refine (ih onward.abreast (by omega) (by omega) (by omega)).bind (j := 0)
        fun rest rest' _ _ sameRest onward => abreast_pure onward.abreast ?_
      refine congrArg₂ List.cons ?_ sameRest
      cases conditions with
      | none =>
        cases conditions' with
        | none => exact congrArg (Case.mk none) same
        | some => nomatch sameConditions
      | some =>
        cases conditions' with
        | none => nomatch sameConditions
        | some => rw [Case.seen, Case.seen, Option.some.inj sameConditions, same]
    refine abreast_accept onward₂.abreast isProper_of_isKeyword
      (fun _ _ _ onward => further rfl onward) fun _ => ?_
    have conditions : Abreast V extra 1 (CasesAbreast V) (some <$> commaList Expr.parse)
        (some <$> commaList Expr.parse) c₂ d₂ :=
      (abreast_commaList onward₂.abreast fun h _ => Expr.abreast_parse h).map
        fun _ _ same => congrArg some same
    exact (conditions.bind (j := 0) fun _ _ _ _ same onward => further same onward).loosen

theorem abreast_selectStatement (inner : AbreastWithin V extra n (Stmt.SeenAs V) st st')
    (h : c.Abreast V extra d) (hn : c.rest.length ≤ n + 1) :
    Abreast V extra 1 (Stmt.SeenAs V) (selectStatement st) (selectStatement st') c d := by
  refine (abreast_requireKeyword .selectWord h).bind (j := 0) fun s s' c₁ d₁ hs onward₁ => ?_
  refine ((abreast_requireKeyword .caseWord onward₁.abreast).bind (j := 0)
    fun _ _ c₂ d₂ _ onward₂ => ?_).loosen
  refine ((Expr.abreast_parse onward₂.abreast).bind (j := 0)
    fun subject subject' c₃ d₃ sameSubject onward₃ => ?_).loosen
  have hn := length_le_of_onward hn (by decide) ((onward₁.trans onward₂).trans onward₃)
  refine abreast_remaining onward₃.abreast fun m m' hm hm' => ?_
  refine (abreast_cases inner onward₃.abreast hn hm hm').bind (j := 0)
    fun found found' _ _ same onward => ?_
  refine ((abreast_requireKeyword .endWord onward.abreast).bind (j := 0)
    fun _ _ _ _ _ onward => ?_).loosen
  refine ((abreast_requireKeyword .selectWord onward.abreast).bind (j := 0)
    fun _ _ _ _ _ onward => ?_).loosen
  refine abreast_previous onward.abreast fun _ _ hp => abreast_pure onward.abreast ?_
  rw [Stmt.SeenAs, Stmt.seen, Stmt.seen, V.merge hs hp, sameSubject, same]

theorem abreast_withStatement (inner : AbreastWithin V extra n (Stmt.SeenAs V) st st')
    (h : c.Abreast V extra d) (hn : c.rest.length ≤ n + 1) :
    Abreast V extra 1 (Stmt.SeenAs V) (withStatement st) (withStatement st') c d := by
  refine (abreast_requireKeyword .withWord h).bind (j := 0) fun s s' c₁ d₁ hs onward₁ => ?_
  refine ((Expr.abreast_parse onward₁.abreast).bind (j := 0)
    fun object object' c₂ d₂ sameObject onward₂ => ?_).loosen
  refine abreast_bodyThen _ _ inner onward₂.abreast
    (length_le_of_onward hn (by decide) (onward₁.trans onward₂)) fun body body' _ _ _ _ same onward => ?_
  refine ((abreast_requireKeyword .withWord onward.abreast).bind (j := 0)
    fun _ _ _ _ _ onward => ?_).loosen
  refine abreast_previous onward.abreast fun _ _ hp => abreast_pure onward.abreast ?_
  rw [Stmt.SeenAs, Stmt.seen, Stmt.seen, V.merge hs hp, sameObject, same]

end Parse

end PageScript
