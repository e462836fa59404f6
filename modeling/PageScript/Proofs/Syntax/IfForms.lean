import PageScript.Proofs.Syntax.Abreast.Statements
import PageScript.Proofs.Syntax.Calls
import PageScript.Proofs.Syntax.OneLine
import PageScript.Proofs.Syntax.Rows

/-!
# Proofs/Syntax/IfForms — an `if` on one line and in a block

An `if` may have its statements on one line, with colons in between, or each on a line of its own up to
`end if`.  Both forms are read as the same branch, and what stands behind the line is read as it is
behind `end if` (`Stmt.readAlike_of_forms`).
-/

namespace PageScript

open Parse Grammar
open Token (next nextAdjacent)

namespace Stmt

/-! ## The two forms -/

/-- Statements each on a line of its own. -/
inductive IsRows : List (List Token) → List Token → Prop
  | nil : IsRows [] []
  | cons {ts us : List Token} {b : Token} {tss : List (List Token)} (hb : b.kind = .lineBreak)
      (further : IsRows tss us) : IsRows (ts :: tss) (ts ++ b :: us)

/-- The tokens of an `if` on one line, with those of its condition and of the statements in its
branches. -/
inductive IfOnLine (ws : List Token) : List (List Token) → List (List Token) → List Token → Prop
  | alone {w t : Token} {tss : List (List Token)} {us : List Token} (hw : w.kind = .keyword .ifWord)
      (ht : t.kind = .keyword .thenWord) (line : IsLine tss us) :
      IfOnLine ws tss [] (w :: (ws ++ t :: us))
  | otherwise {w t e : Token} {tss tss' : List (List Token)} {us us' : List Token}
      (hw : w.kind = .keyword .ifWord) (ht : t.kind = .keyword .thenWord) (line : IsLine tss us)
      (he : e.kind = .keyword .elseWord) (line' : IsLine tss' us') :
      IfOnLine ws tss tss' (w :: (ws ++ t :: (us ++ e :: us')))

/-- The tokens of an `if` in a block, with those of its condition and of the statements in its
branches. -/
inductive IfInBlock (ws : List Token) : List (List Token) → List (List Token) → List Token → Prop
  | alone {w t b n f : Token} {tss : List (List Token)} {us : List Token}
      (hw : w.kind = .keyword .ifWord) (ht : t.kind = .keyword .thenWord) (hb : b.kind = .lineBreak)
      (rows : IsRows tss us) (hn : n.kind = .keyword .endWord) (hf : f.kind = .keyword .ifWord) :
      IfInBlock ws tss [] (w :: (ws ++ t :: b :: (us ++ [n, f])))
  | otherwise {w t b e b' n f : Token} {tss tss' : List (List Token)} {us us' : List Token}
      (hw : w.kind = .keyword .ifWord) (ht : t.kind = .keyword .thenWord) (hb : b.kind = .lineBreak)
      (rows : IsRows tss us) (he : e.kind = .keyword .elseWord) (hb' : b'.kind = .lineBreak)
      (rows' : IsRows tss' us') (hn : n.kind = .keyword .endWord) (hf : f.kind = .keyword .ifWord) :
      IfInBlock ws tss tss' (w :: (ws ++ t :: b :: (us ++ e :: b' :: (us' ++ [n, f]))))

/-! ## Rows of statements -/

variable {whole reader : Parse Stmt} {tss tss' : List (List Token)} {ts us us' ws rest : List Token}
  {results results' : List (Stmt → Prop)} {p : Span} {cond : Expr} {w t b : Token}

theorem statements_lineBreak (hb : b.kind = .lineBreak) (stop : TokenKind → Bool) (n : Nat) :
    statements reader stop (n + 1) ⟨b :: ts, p⟩ = statements reader stop (n + 1) ⟨ts, b.span⟩ := by
  have separator : (Cursor.mk (b :: ts) p).kind = .lineBreak := hb
  rw [statements_separator (separator ▸ rfl) (separator ▸ rfl), Cursor.advance_cons (hb ▸ rfl)]

/-- Rows are read statement by statement, up to a word at which the block stops. -/
theorem IsRows.run {stop : TokenKind → Bool} (goes : ∀ kind, Begins kind → stop kind = false)
    (stays : ∀ kind, stop kind = true → kind.isSeparator = false) (h : IsRows tss us) :
    ∀ {results : List (Stmt → Prop)}, List.Forall₂ (ReadsOne reader) tss results →
      ∀ {n : Nat}, us.length < n → stop (next rest) = true → ∀ p, ∃ stmts q, AreOf results stmts ∧
        statements reader stop n ⟨us ++ rest, p⟩ = .ok (stmts, ⟨rest, q⟩) := by
  induction h with
  | nil =>
    intro results reads n _ stops p
    cases reads
    exact ⟨[], p, .nil, statements_stop (.inr (Cursor.kind_mk_eq rest p ▸ stops)) stays⟩
  | @cons ts us b tss hb further ih =>
    intro results reads n fits stops p
    obtain _ | ⟨first, reads⟩ := reads
    rw [List.length_append, List.length_cons] at fits
    obtain ⟨n, rfl⟩ : ∃ m, n = m + 2 := ⟨n - 2, by omega⟩
    rw [List.append_assoc, List.cons_append]
    have ends : (next (b :: (us ++ rest))).Ends := by
      rw [Token.next_cons, hb]
      rfl
    obtain ⟨stmt, q, hresult, run⟩ :=
      first.statements_run (goes _ (first.begins (b :: (us ++ rest)))) (n + 1) p ends
    obtain ⟨stmts, q', hresults, run'⟩ := ih reads (n := n + 1) (by omega) stops b.span
    refine ⟨stmt :: stmts, q', .cons hresult hresults, run.trans ?_⟩
    rw [bind_of_ok ((statements_lineBreak hb stop n).trans run')]
    rfl

/-- No statement begins with one of the words. -/
abbrev EndWords (words : List Keyword) : Prop := ∀ k ∈ words, k ∉ startWords ∧ k ≠ .setWord

theorem EndWords.any_eq_false {words : List Keyword} (hwords : EndWords words) (kind : TokenKind)
    (h : Begins kind) : (words.any fun k => kind.isKeyword k) = false := by
  rw [List.any_eq_false]
  intro k mem found
  obtain rfl := TokenKind.isKeyword_iff.mp found
  obtain ⟨other, other'⟩ := hwords k mem
  obtain h | h := h
  · exact other h
  · exact other' (TokenKind.keyword.inj h)

/-- Rows behind a line break are read up to one of some words. -/
theorem IsRows.blockUntil (h : IsRows tss us) (reads : List.Forall₂ (ReadsOne reader) tss results)
    (hb : b.kind = .lineBreak) {words : List Keyword} (hwords : EndWords words) {e : Token}
    {k : Keyword} (mem : k ∈ words) (he : e.kind = .keyword k) (rest : List Token) (p : Span) :
    ∃ stmts q, AreOf results stmts ∧
      Parse.blockUntil reader words ⟨b :: (us ++ e :: rest), p⟩ = .ok (stmts, ⟨e :: rest, q⟩) := by
  have stays (kind : TokenKind) (found : (words.any fun k => kind.isKeyword k) = true) :
      kind.isSeparator = false := by
    obtain ⟨k, -, found⟩ := List.any_eq_true.mp found
    obtain rfl := TokenKind.isKeyword_iff.mp found
    rfl
  have stops : (words.any fun k => (next (e :: rest)).isKeyword k) = true :=
    List.any_eq_true.mpr ⟨k, mem, TokenKind.isKeyword_iff.mpr he⟩
  obtain ⟨stmts, q, hresults, run⟩ := h.run hwords.any_eq_false stays reads
    (n := (us ++ e :: rest).length + 1) (by rw [List.length_append]; omega) stops b.span
  exact ⟨stmts, q, hresults, (statements_lineBreak hb _ _).trans run⟩

/-! ## The block form -/

/-- What an `if` reads behind `then`, where the line is over. -/
theorem ifStatement_block (hw : w.kind = .keyword .ifWord) (hcond : ReadsAll Expr.parse ws cond.Same)
    (ht : t.kind = .keyword .thenWord) (hb : b.kind = .lineBreak) (p : Span) :
    ∃ cond', cond.Same cond' ∧ ifStatement reader ⟨w :: (ws ++ t :: b :: us), p⟩ =
      (branches reader (us.length + 1) >>= fun bodies => requireKeyword .endWord >>= fun _ =>
        requireKeyword .ifWord >>= fun _ => branchOnLine w.span cond' bodies.1 bodies.2)
          ⟨b :: us, t.span⟩ := by
  obtain ⟨cond', same, run⟩ := ifStatement_then hw hcond ht p
  have ended : (Cursor.mk (b :: us) t.span).kind.endsStatement = true := by
    rw [Cursor.kind_mk_eq, Token.next_cons, hb]
    rfl
  refine ⟨cond', same, run.trans ((bind_of_ok (kind_run _)).trans ?_)⟩
  rw [if_pos ended]
  rfl

theorem endWords_first : EndWords [.elseIfWord, .elseWord, .endWord] := by decide

theorem endWords_second : EndWords [.endWord] := by decide

/-- The rows of a branch without `else`. -/
theorem IsRows.branches {n : Token} (h : IsRows tss us)
    (reads : List.Forall₂ (ReadsOne reader) tss results) (hb : b.kind = .lineBreak)
    (hn : n.kind = .keyword .endWord) (rest : List Token) (bound : Nat) (p : Span) :
    ∃ stmts q, AreOf results stmts ∧
      Parse.branches reader (bound + 1) ⟨b :: (us ++ n :: rest), p⟩ =
        .ok ((stmts, []), ⟨n :: rest, q⟩) := by
  obtain ⟨stmts, q, hresults, run⟩ :=
    h.blockUntil reads hb endWords_first (k := .endWord) (by decide) hn rest p
  refine ⟨stmts, q, hresults, (bind_of_ok run).trans ((bind_of_ok (kind_run _)).trans ?_)⟩
  rw [Cursor.kind_mk_eq, Token.next_cons, hn]
  rfl

/-- The rows of a branch with `else`. -/
theorem IsRows.branches_else {e b' n : Token} (h : IsRows tss us) (h' : IsRows tss' us')
    (reads : List.Forall₂ (ReadsOne reader) tss results)
    (reads' : List.Forall₂ (ReadsOne reader) tss' results') (hb : b.kind = .lineBreak)
    (he : e.kind = .keyword .elseWord) (hb' : b'.kind = .lineBreak) (hn : n.kind = .keyword .endWord)
    (rest : List Token) (bound : Nat) (p : Span) : ∃ stmts stmts' q, AreOf results stmts ∧ AreOf results' stmts' ∧
      Parse.branches reader (bound + 1) ⟨b :: (us ++ e :: b' :: (us' ++ n :: rest)), p⟩ =
        .ok ((stmts, stmts'), ⟨n :: rest, q⟩) := by
  obtain ⟨stmts, q, hresults, run⟩ := h.blockUntil reads hb endWords_first (k := .elseWord)
    (by decide) he (b' :: (us' ++ n :: rest)) p
  obtain ⟨stmts', q', hresults', run'⟩ :=
    h'.blockUntil reads' hb' endWords_second (k := .endWord) (by decide) hn rest e.span
  refine ⟨stmts, stmts', q', hresults, hresults', ?_⟩
  refine (bind_of_ok run).trans ((bind_of_ok (kind_run _)).trans ?_)
  rw [Cursor.kind_mk_eq, Token.next_cons, he]
  exact (bind_of_ok (advance_cons (he ▸ rfl))).trans (bind_of_ok run')

/-- The statement is a branch with a condition and statements of certain kinds. -/
def IsBranch (cond : Expr) (results results' : List (Stmt → Prop)) (stmt : Stmt) : Prop :=
  ∃ s cond' first second, stmt = .branch s cond' first second ∧ cond.Same cond' ∧
    AreOf results first ∧ AreOf results' second

/-- An `if` in a block is read up to `end if`, whatever stands behind. -/
theorem IfInBlock.readsBefore (h : IfInBlock ws tss tss' ts) (hwhole : ReadsIf whole reader)
    (hcond : ReadsAll Expr.parse ws cond.Same) (reads : List.Forall₂ (ReadsOne reader) tss results)
    (reads' : List.Forall₂ (ReadsOne reader) tss' results') :
    ReadsBefore whole ts (fun _ => True) (IsBranch cond results results') := by
  intro rest p _
  cases h with
  | @alone w t b n f _ us hw ht hb rows hn hf =>
    obtain _ | _ := reads'
    have tokens : w :: (ws ++ t :: b :: (us ++ [n, f])) ++ rest =
        w :: (ws ++ t :: b :: (us ++ n :: f :: rest)) := by
      simp
    rw [tokens, hwhole hw]
    obtain ⟨cond', same, run⟩ := ifStatement_block hw hcond ht hb p
    obtain ⟨stmts, q, hresults, bodies⟩ := rows.branches reads hb hn (f :: rest) _ t.span
    refine ⟨.branch (w.span.merge f.span) cond' stmts [], f.span,
      ⟨_, cond', stmts, [], rfl, same, hresults, .nil⟩, run.trans ?_⟩
    exact (bind_of_ok bodies).trans
      ((bind_of_ok (requireKeyword_cons hn)).trans (bind_of_ok (requireKeyword_cons hf)))
  | @otherwise w t b e b' n f _ _ us us' hw ht hb rows he hb' rows' hn hf =>
    have tokens : w :: (ws ++ t :: b :: (us ++ e :: b' :: (us' ++ [n, f]))) ++ rest =
        w :: (ws ++ t :: b :: (us ++ e :: b' :: (us' ++ n :: f :: rest))) := by
      simp
    rw [tokens, hwhole hw]
    obtain ⟨cond', same, run⟩ := ifStatement_block hw hcond ht hb p
    obtain ⟨stmts, stmts', q, hresults, hresults', bodies⟩ :=
      rows.branches_else rows' reads reads' hb he hb' hn (f :: rest) _ t.span
    refine ⟨.branch (w.span.merge f.span) cond' stmts stmts', f.span,
      ⟨_, cond', stmts, stmts', rfl, same, hresults, hresults'⟩, run.trans ?_⟩
    exact (bind_of_ok bodies).trans
      ((bind_of_ok (requireKeyword_cons hn)).trans (bind_of_ok (requireKeyword_cons hf)))

/-! ## The form on a line -/

/-- An `if` on one line is read up to where the line is over. -/
theorem IfOnLine.readsBefore (h : IfOnLine ws tss tss' ts) (hwhole : ReadsIf whole reader)
    (hcond : ReadsAll Expr.parse ws cond.Same) (reads : List.Forall₂ (ReadsOne reader) tss results)
    (reads' : List.Forall₂ (ReadsOne reader) tss' results') :
    ReadsBefore whole ts EndsLine (IsBranch cond results results') := by
  intro rest p ends
  cases h with
  | alone hw ht line =>
    obtain _ | _ := reads'
    obtain ⟨_, q, ⟨s, cond', first, rfl, same, hfirst⟩, run⟩ :=
      line.readsBranch hwhole reads hw hcond ht rest p ends
    exact ⟨_, q, ⟨s, cond', first, [], rfl, same, hfirst, .nil⟩, run⟩
  | otherwise hw ht line he line' =>
    exact line.readsBranches line' hwhole reads reads' hw hcond ht he rest p ends

/-! ## Agreement -/

theorem IsBranch.same {body other : List Stmt} {stmt : Stmt}
    (h : IsBranch cond (body.map Same) (other.map Same) stmt) :
    (Stmt.branch .origin cond body other).Same stmt := by
  obtain ⟨s, cond', first, second, rfl, same, hfirst, hsecond⟩ := h
  rw [AreOf, List.forall₂_map_left_iff] at hfirst hsecond
  change Stmt.branch .origin cond'.unplaced _ _ = Stmt.branch .origin cond.unplaced _ _
  rw [same, sameAll_of_forall₂ hfirst, sameAll_of_forall₂ hsecond]

/-- Statements on one line are read by every reader of statements. -/
theorem readsOne_of_isOneLine {body : List Stmt} (h : List.Forall₂ IsOneLine tss body) (bound : Nat)
    (around : Enclosing) :
    List.Forall₂ (ReadsOne (Stmt.parseAt (bound + 1) around)) tss (body.map Same) := by
  rw [List.forall₂_map_right_iff]
  exact h.imp fun ts stmt oneLine => oneLine.foundEverywhere.statement bound around

/-- In front of what ends a line, two lists of tokens are read as a statement, up to places, and the
statements behind the one are read as those behind the other one. -/
def ReadAlike (ts us : List Token) (stmt : Stmt) : Prop :=
  ∀ ⦃rest rest'⦄, Token.Abreast .blind 0 rest rest' → EndsLine (next rest) →
    ∀ ⦃bound bound'⦄ (around), (ts ++ rest).length ≤ bound → (us ++ rest').length ≤ bound' →
      ∀ p p', ∃ found found' q q', stmt.Same found ∧ stmt.Same found' ∧
        Stmt.parseAt bound around ⟨ts ++ rest, p⟩ = .ok (found, ⟨rest, q⟩) ∧
        Stmt.parseAt bound' around ⟨us ++ rest', p'⟩ = .ok (found', ⟨rest', q'⟩) ∧
        ∀ stop n n', rest.length ≤ n → rest'.length ≤ n' →
          Parse.Abreast .blind 0 0 (AllSeenAs .blind) (statements (Stmt.parseAt bound around) stop n)
            (statements (Stmt.parseAt bound' around) stop n') ⟨rest, q⟩ ⟨rest', q'⟩

theorem IfOnLine.two_le (h : IfOnLine ws tss tss' ts) : 2 ≤ ts.length := by
  cases h <;> simp only [List.length_cons, List.length_append] <;> omega

theorem IfInBlock.two_le (h : IfInBlock ws tss tss' ts) : 2 ≤ ts.length := by
  cases h <;> simp only [List.length_cons, List.length_append] <;> omega

/-- Behind a statement the same statements are read, up to places, whatever the bounds. -/
theorem abreast_statements_behind {rest' : List Token} {q q' : Span} {bound bound' : Nat}
    (h : Token.Abreast .blind 0 rest rest') (around : Enclosing) (fits : rest.length ≤ bound)
    (fits' : rest.length ≤ bound') (stop : TokenKind → Bool) {n n' : Nat} (hn : rest.length ≤ n)
    (hn' : rest'.length ≤ n') :
    Parse.Abreast .blind 0 0 (AllSeenAs .blind) (statements (Stmt.parseAt bound around) stop n)
      (statements (Stmt.parseAt bound' around) stop n') ⟨rest, q⟩ ⟨rest', q'⟩ := by
  have inner : AbreastWithin .blind 0 rest.length (Stmt.SeenAs .blind) (Stmt.parseAt bound around)
      (Stmt.parseAt bound' around) :=
    fun h le => Stmt.abreast_parseAt around h (Nat.le_trans le fits) (Nat.le_trans le fits')
  have length : rest.length ≤ rest'.length := Nat.le_of_eq h.length_eq.symm
  exact abreast_statements stop inner ⟨h, rfl⟩ (Nat.le_refl _) hn (Nat.le_trans length hn')

/-- **An `if` on one line is read as the `if` in a block** with the same condition and the same
statements, and what stands behind the line as what stands behind `end if`. -/
theorem readAlike_of_forms {ws' us : List Token} {uss uss' : List (List Token)} {body other : List Stmt}
    (hcond : ReadsAll Expr.parse ws cond.Same) (hcond' : ReadsAll Expr.parse ws' cond.Same)
    (first : List.Forall₂ IsOneLine tss body) (second : List.Forall₂ IsOneLine tss' other)
    (first' : List.Forall₂ IsOneLine uss body) (second' : List.Forall₂ IsOneLine uss' other)
    (line : IfOnLine ws tss tss' ts) (block : IfInBlock ws' uss uss' us) :
    ReadAlike ts us (.branch .origin cond body other) := by
  intro rest rest' h ends bound bound' around fits fits' p p'
  have length := h.length_eq
  have two := line.two_le
  have two' := block.two_le
  rw [List.length_append] at fits fits'
  obtain ⟨n, rfl⟩ : ∃ n, bound = n + 2 := ⟨bound - 2, by omega⟩
  obtain ⟨n', rfl⟩ : ∃ n, bound' = n + 2 := ⟨bound' - 2, by omega⟩
  obtain ⟨found, q, isBranch, run⟩ := line.readsBefore (readsIf_parseAt (n + 1) around) hcond
    (readsOne_of_isOneLine first n around) (readsOne_of_isOneLine second n around) rest p ends
  obtain ⟨found', q', isBranch', run'⟩ := block.readsBefore (readsIf_parseAt (n' + 1) around) hcond'
    (readsOne_of_isOneLine first' n' around) (readsOne_of_isOneLine second' n' around) rest' p' trivial
  refine ⟨found, found', q, q', isBranch.same, isBranch'.same, run, run', fun stop m m' hm hm' => ?_⟩
  exact abreast_statements_behind h around (by omega) (by omega) stop hm hm'

/-- The call `log`, as a statement. -/
def logCall : Stmt := .call .origin (.call .origin (.var .origin (.ofString "log")) [])

/-- The lines `if x then log : log : else dim y` and `if x then`, `log`, `log`, `else`, `dim y`,
`end if`. -/
theorem readAlike_log :
    ReadAlike
      [apart (.keyword .ifWord), apart (.ident (.ofString "x")), apart (.keyword .thenWord),
        apart (.ident (.ofString "log")), apart (.symbol .colon), apart (.ident (.ofString "log")),
        apart (.symbol .colon), apart (.keyword .elseWord), apart (.keyword .dimWord),
        apart (.ident (.ofString "y"))]
      [apart (.keyword .ifWord), apart (.ident (.ofString "x")), apart (.keyword .thenWord),
        apart .lineBreak, apart (.ident (.ofString "log")), apart .lineBreak,
        apart (.ident (.ofString "log")), apart .lineBreak, apart (.keyword .elseWord),
        apart .lineBreak, apart (.keyword .dimWord), apart (.ident (.ofString "y")), apart .lineBreak,
        apart (.keyword .endWord), apart (.keyword .ifWord)]
      (.branch .origin (.var .origin (.ofString "x")) [logCall, logCall]
        [.block .origin [.dim .origin (.ofString "y") none .isPublic]]) := by
  have cond : ReadsAll Expr.parse [apart (.ident (.ofString "x"))]
      (Expr.var .origin (.ofString "x")).Same := ⟨_, _, rfl, rfl⟩
  have log : IsOneLine [apart (.ident (.ofString "log"))] logCall :=
    ⟨trivial, ⟨false, false⟩, _, _, rfl, rfl⟩
  have dim : IsOneLine [apart (.keyword .dimWord), apart (.ident (.ofString "y"))]
      (.block .origin [.dim .origin (.ofString "y") none .isPublic]) :=
    ⟨List.mem_of_elem_eq_true rfl, ⟨false, false⟩, _, _, rfl, rfl⟩
  exact readAlike_of_forms cond cond (.cons log (.cons log .nil)) (.cons dim .nil)
    (.cons log (.cons log .nil)) (.cons dim .nil)
    (.otherwise rfl rfl (.cons rfl (.colon rfl)) rfl .last)
    (.otherwise rfl rfl rfl (.cons rfl (.cons rfl .nil)) rfl rfl (.cons rfl .nil) rfl rfl)

end Stmt

end PageScript
