import PageScript.Proofs.Syntax.Grammar.Completeness
import PageScript.Proofs.Syntax.Program.Blocks

/-!
# Proofs/Syntax/Places — where statements stand

Tokens that a reader of statements reads as a statement in front of whatever ends one (`Stmt.ReadsOne`)
are read so in every place where the reader is used: among the statements of a page or a block
(`Stmt.ReadsAmong`, `Stmt.FoundAmong`), and in either branch of an `if` on one line
(`Stmt.ReadsBranches`).
-/

namespace PageScript

open Parse Grammar
open Token (next nextAdjacent)

namespace Parse

variable {α : Type}

/-- The tokens are all that a reader takes, and what it reads is a result of a certain kind. -/
def ReadsAll (reader : Parse α) (ts : List Token) (result : α → Prop) : Prop :=
  ∃ a q, result a ∧ reader ⟨ts, .origin⟩ = .ok (a, ⟨[], q⟩)

/-- In front of a token that may follow, a reader takes the tokens, and what it reads is a result of a
certain kind. -/
def ReadsBefore (reader : Parse α) (ts : List Token) (follow : TokenKind → Prop) (result : α → Prop) :
    Prop :=
  ∀ rest p, follow (next rest) → ∃ a q, result a ∧ reader ⟨ts ++ rest, p⟩ = .ok (a, ⟨rest, q⟩)

end Parse

/-- A statement may be over before the token; `else` ends the first branch on a line. -/
def TokenKind.EndsCall (kind : TokenKind) : Prop := kind.Ends ∨ kind = .keyword .elseWord

namespace TokenKind

variable {kind : TokenKind}

theorem EndsCall.stopsList (h : kind.EndsCall) : kind.StopsList := by
  obtain h | rfl := h
  · exact h.stopsList
  · exact .keyword rfl

theorem EndsCall.isSymbol_eq (h : kind.EndsCall) : kind.isSymbol .eq = false := by
  obtain h | rfl := h
  · cases kind with
    | symbol s => cases s <;> first | rfl | nomatch h
    | _ => rfl
  · rfl

theorem EndsCall.ends (h : kind.EndsCall) : (kind.endsStatement || kind.isKeyword .elseWord) = true := by
  obtain h | rfl := h
  · exact Bool.or_eq_true_iff.mpr (.inl h)
  · rfl

end TokenKind

namespace Stmt

variable {reader : Parse Stmt} {result : Stmt → Prop} {ts us us' : List Token} {p : Span}

/-- In front of whatever ends a statement, the tokens are read as a statement of a certain kind. -/
structure ReadsStatement (reader : Parse Stmt) (ts : List Token) (result : Stmt → Prop) : Prop where
  read : ReadsBefore reader ts TokenKind.EndsCall result
  starts (rest : List Token) : StartsWith (next (ts ++ rest))

/-! ## Among other statements -/

/-- Among statements, the tokens are read as the next one, and reading goes on behind them. -/
def ReadsAmong (reader : Parse Stmt) (ts : List Token) (result : Stmt → Prop) : Prop :=
  ∀ ⦃stop⦄, NoStart stop → ∀ n rest p, (next rest).Ends → ∃ stmt q, result stmt ∧
    statements reader stop (n + 1) ⟨ts ++ rest, p⟩ =
      (statements reader stop n >>= fun further => pure (stmt :: further)) ⟨rest, q⟩

/-- A statement may begin with the token: `set` is a first word of assignments only. -/
def Begins (kind : TokenKind) : Prop := StartsWith kind ∨ kind = .keyword .setWord

theorem Begins.stays {kind : TokenKind} (h : Begins kind) : Stays kind := by
  obtain h | rfl := h
  · exact h.stays
  · rfl

theorem Begins.isEnd_eq {kind : TokenKind} (h : Begins kind) : kind.isEnd = false := by
  obtain h | rfl := h
  · exact h.isEnd_eq
  · rfl

theorem Begins.endsStatement_eq {kind : TokenKind} (h : Begins kind) : kind.endsStatement = false := by
  obtain h | rfl := h
  · rw [TokenKind.endsStatement, h.isSeparator_eq]
    cases kind <;> first | rfl | exact h.elim
  · rfl

theorem Begins.isElse_eq {kind : TokenKind} (h : Begins kind) : kind.isKeyword .elseWord = false := by
  obtain h | rfl := h
  · exact h.isKeyword_eq (by decide)
  · rfl

/-- In front of whatever ends a statement, the tokens are read as a statement of a certain kind,
whatever it begins with. -/
structure ReadsOne (reader : Parse Stmt) (ts : List Token) (result : Stmt → Prop) : Prop where
  read : ReadsBefore reader ts TokenKind.EndsCall result
  begins (rest : List Token) : Begins (next (ts ++ rest))

theorem ReadsStatement.one (h : ReadsStatement reader ts result) : ReadsOne reader ts result :=
  ⟨h.read, fun rest => .inl (h.starts rest)⟩

/-- What stops at no first token of theirs reads the tokens as the next statement. -/
theorem ReadsOne.statements_run (h : ReadsOne reader ts result) {stop : TokenKind → Bool}
    {rest : List Token} (goes : stop (next (ts ++ rest)) = false) (n : Nat) (p : Span)
    (ends : (next rest).Ends) : ∃ stmt q, result stmt ∧
      statements reader stop (n + 1) ⟨ts ++ rest, p⟩ =
        (statements reader stop n >>= fun further => pure (stmt :: further)) ⟨rest, q⟩ := by
  obtain ⟨stmt, q, hresult, run⟩ := h.read rest p (.inl ends)
  refine ⟨stmt, q, hresult, ?_⟩
  have first := h.begins rest
  have dropped : dropSeparators ⟨ts ++ rest, p⟩ = .ok ((), ⟨ts ++ rest, p⟩) := by
    generalize ts ++ rest = us at first
    cases us with
    | nil => rfl
    | cons t us =>
      exact congrArg (fun c => Except.ok ((), c)) (if_neg (first.stays ▸ Bool.false_ne_true))
  have goes : ¬((Cursor.mk (ts ++ rest) p).kind.isEnd ||
      stop (Cursor.mk (ts ++ rest) p).kind) = true := by
    rw [Cursor.kind_mk_eq, first.isEnd_eq, goes]
    exact Bool.false_ne_true
  have ended : statementEnd ⟨rest, q⟩ = .ok ((), ⟨rest, q⟩) := by
    rw [statementEnd, bind_of_ok (kind_run _), if_pos (Cursor.kind_mk_eq rest q ▸ ends)]
    rfl
  rw [statements, bind_of_ok dropped, bind_of_ok (kind_run _), if_neg goes, bind_of_ok run,
    bind_of_ok ended]

theorem ReadsStatement.among (h : ReadsStatement reader ts result) : ReadsAmong reader ts result :=
  fun _ hstop n rest p ends => h.one.statements_run (hstop _ (h.starts rest)) n p ends

/-- Among statements, the tokens are read as the next one, whatever it begins with, and reading goes on
behind them. -/
def FoundAmong (reader : Parse Stmt) (ts : List Token) (result : Stmt → Prop) : Prop :=
  ∀ ⦃stop : TokenKind → Bool⦄, (∀ kind, Begins kind → stop kind = false) →
    ∀ n rest p, (next rest).Ends → ∃ stmt q, result stmt ∧
      statements reader stop (n + 1) ⟨ts ++ rest, p⟩ =
        (statements reader stop n >>= fun further => pure (stmt :: further)) ⟨rest, q⟩

theorem ReadsOne.among (h : ReadsOne reader ts result) : FoundAmong reader ts result :=
  fun _ hstop n rest p ends => h.statements_run (hstop _ (h.begins rest)) n p ends

/-! ## On a line -/

theorem requireKeyword_cons {t : Token} {k : Keyword} (h : t.kind = .keyword k) :
    requireKeyword k ⟨t :: ts, p⟩ = .ok (t.span, ⟨ts, t.span⟩) := by
  have found : (Cursor.mk (t :: ts) p).kind.isKeyword k = true := TokenKind.isKeyword_iff.mpr h
  rw [requireKeyword, require, bind_of_ok (kind_run _), if_pos found]
  exact advance_cons (h ▸ rfl)

theorem acceptKeyword_cons {t : Token} {k : Keyword} (h : t.kind = .keyword k) :
    acceptKeyword k ⟨t :: ts, p⟩ = .ok (true, ⟨ts, t.span⟩) := by
  have found : (Cursor.mk (t :: ts) p).kind.isKeyword k = true := TokenKind.isKeyword_iff.mpr h
  exact (accept_yes found).trans
    (congrArg (fun c => Except.ok (true, c)) (Cursor.advance_cons (h ▸ rfl)))

/-- The line that statements are on, with colons in between and maybe one at the end. -/
inductive IsLine : List (List Token) → List Token → Prop
  | last {ts : List Token} : IsLine [ts] ts
  | colon {ts : List Token} {c : Token} (hc : c.kind = .symbol .colon) : IsLine [ts] (ts ++ [c])
  | cons {ts us : List Token} {c : Token} {tss : List (List Token)} (hc : c.kind = .symbol .colon)
      (further : IsLine tss us) : IsLine (ts :: tss) (ts ++ c :: us)

/-- As many statements as asked for, each of its kind. -/
abbrev AreOf : List (Stmt → Prop) → List Stmt → Prop := List.Forall₂ fun result stmt => result stmt

/-- A branch on a line is over before the token. -/
def EndsBranch (kind : TokenKind) : Prop := kind.EndsCall ∧ kind ≠ .symbol .colon

/-- A line is over before the token. -/
def EndsLine (kind : TokenKind) : Prop := kind.Ends ∧ kind ≠ .symbol .colon

theorem EndsLine.endsBranch {kind : TokenKind} (h : EndsLine kind) : EndsBranch kind := ⟨.inl h.1, h.2⟩

variable {tss tss' : List (List Token)} {results results' : List (Stmt → Prop)}

theorem IsLine.begins (h : IsLine tss us) (reads : List.Forall₂ (ReadsOne reader) tss results)
    (rest : List Token) : Begins (next (us ++ rest)) := by
  cases h with
  | last =>
    cases reads with
    | cons first => exact first.begins rest
  | colon | cons =>
    cases reads with
    | cons first =>
      rw [List.append_assoc]
      exact first.begins _

theorem acceptSymbol_cons {c : Token} {s : Symbol} (h : c.kind = .symbol s) :
    acceptSymbol s ⟨c :: ts, p⟩ = .ok (true, ⟨ts, c.span⟩) := by
  have found : (Cursor.mk (c :: ts) p).kind.isSymbol s = true := TokenKind.isSymbol_iff.mpr h
  exact (accept_yes found).trans
    (congrArg (fun c => Except.ok (true, c)) (Cursor.advance_cons (h ▸ rfl)))

/-- A line is read statement by statement, up to where it is over. -/
theorem IsLine.run (h : IsLine tss us) {results : List (Stmt → Prop)}
    (reads : List.Forall₂ (ReadsOne reader) tss results) {n : Nat} (fits : us.length ≤ n)
    {rest : List Token} (ends : EndsBranch (next rest)) (p : Span) :
    ∃ stmts q, AreOf results stmts ∧
      lineStatements reader n ⟨us ++ rest, p⟩ = .ok (stmts, ⟨rest, q⟩) := by
  -- Each colon ends a statement and takes one of the bound.
  have ended {c : Token} {us : List Token} (hc : c.kind = .symbol .colon) :
      (next (c :: us)).EndsCall := by
    rw [Token.next_cons, hc]
    exact .inl rfl
  have one {ts us : List Token} {c : Token} {n : Nat} (h : (ts ++ c :: us).length ≤ n) :
      ∃ m, n = m + 1 ∧ us.length ≤ m := by
    rw [List.length_append, List.length_cons] at h
    exact ⟨n - 1, by omega, by omega⟩
  induction h generalizing results n p with
  | @last ts =>
    obtain _ | ⟨first, _ | _⟩ := reads
    obtain ⟨stmt, q, hresult, run⟩ := first.read rest p ends.1
    refine ⟨[stmt], q, .cons hresult .nil, ?_⟩
    cases n with
    | zero => exact bind_of_ok run
    | succ n =>
      exact (bind_of_ok run).trans
        (bind_of_ok (acceptSymbol_of_ne (Cursor.kind_mk_eq rest q ▸ ends.2)))
  | @colon ts c hc =>
    obtain _ | ⟨first, _ | _⟩ := reads
    obtain ⟨n, rfl, -⟩ := one fits
    obtain ⟨stmt, q, hresult, run⟩ := first.read (c :: rest) p (ended hc)
    refine ⟨[stmt], c.span, .cons hresult .nil, ?_⟩
    rw [List.append_assoc]
    refine (bind_of_ok run).trans ((bind_of_ok (acceptSymbol_cons hc)).trans ?_)
    exact (bind_of_ok (kind_run _)).trans
      (congrFun (if_pos (Cursor.kind_mk_eq rest c.span ▸ ends.1.ends)) _)
  | @cons ts us c tss hc further ih =>
    obtain _ | ⟨first, reads⟩ := reads
    obtain ⟨n, rfl, fits'⟩ := one fits
    obtain ⟨stmt, q, hresult, run⟩ := first.read (c :: (us ++ rest)) p (ended hc)
    obtain ⟨stmts, q', hresults, hfurther⟩ := ih reads fits' c.span
    have goes : ¬((Cursor.mk (us ++ rest) c.span).kind.endsStatement ||
        (Cursor.mk (us ++ rest) c.span).kind.isKeyword .elseWord) = true := by
      have begins := further.begins reads rest
      rw [Cursor.kind_mk_eq, begins.endsStatement_eq, begins.isElse_eq]
      exact Bool.false_ne_true
    refine ⟨stmt :: stmts, q', .cons hresult hresults, ?_⟩
    rw [List.append_assoc, List.cons_append]
    refine (bind_of_ok run).trans ((bind_of_ok (acceptSymbol_cons hc)).trans ?_)
    refine (bind_of_ok (kind_run _)).trans ((congrFun (if_neg goes) _).trans ?_)
    exact bind_of_ok hfurther

theorem IsLine.line (h : IsLine tss us) (reads : List.Forall₂ (ReadsOne reader) tss results)
    {rest : List Token} (ends : EndsBranch (next rest)) (p : Span) :
    ∃ stmts q, AreOf results stmts ∧ Parse.line reader ⟨us ++ rest, p⟩ = .ok (stmts, ⟨rest, q⟩) :=
  h.run reads (by rw [List.length_append]; omega) ends p

/-! ## In the branches of an `if` on one line -/

variable {cond : Expr} {w t : Token} {ws : List Token}

/-- The end of an `if` on one line, behind its branches. -/
def branchOnLine (start : Span) (cond : Expr) (first second : List Stmt) : Parse Stmt := do
  pure (.branch (start.merge (← previous)) cond first second)

/-- What an `if` reads behind `then`. -/
def behindThen (reader : Parse Stmt) (start : Span) (cond : Expr) : Parse Stmt := do
  if (← kind).endsStatement then
    let bodies ← branches reader (← remaining)
    let _ ← requireKeyword .endWord
    let _ ← requireKeyword .ifWord
    branchOnLine start cond bodies.1 bodies.2
  else
    let first ← line reader
    if ← acceptKeyword .elseWord then line reader >>= branchOnLine start cond first
    else branchOnLine start cond first []

/-- An `if` reads its condition, whatever stands behind `then`. -/
theorem ifStatement_then (hw : w.kind = .keyword .ifWord) (hcond : ReadsAll Expr.parse ws cond.Same)
    (ht : t.kind = .keyword .thenWord) (p : Span) :
    ∃ cond', cond.Same cond' ∧ ifStatement reader ⟨w :: (ws ++ t :: us), p⟩ =
      behindThen reader w.span cond' ⟨us, t.span⟩ := by
  obtain ⟨cond₀, q₀, same₀, parsed⟩ := hcond
  have stops : (next (t :: us)).StopsList := by
    rw [Token.next_cons, ht]
    exact .keyword rfl
  obtain ⟨cond', q, same, hparse⟩ :=
    ((expression_of_parse (Nat.le_refl _) parsed).append fun _ => stops).parse w.span
  refine ⟨cond', same.trans same₀, ?_⟩
  refine (bind_of_ok (requireKeyword_cons hw)).trans ((bind_of_ok hparse).trans ?_)
  exact bind_of_ok (requireKeyword_cons ht)

/-- What an `if` reads behind `then`, where a statement starts on the line. -/
theorem ifStatement_run (begins : Begins (next us)) (hw : w.kind = .keyword .ifWord)
    (hcond : ReadsAll Expr.parse ws cond.Same) (ht : t.kind = .keyword .thenWord) (p : Span) :
    ∃ cond', cond.Same cond' ∧ ifStatement reader ⟨w :: (ws ++ t :: us), p⟩ =
      (line reader >>= fun first => acceptKeyword .elseWord >>= fun more =>
        if more then line reader >>= branchOnLine w.span cond' first
        else branchOnLine w.span cond' first []) ⟨us, t.span⟩ := by
  obtain ⟨cond', same, run⟩ := ifStatement_then hw hcond ht p
  have onLine : ¬(Cursor.mk us t.span).kind.endsStatement = true := by
    rw [Cursor.kind_mk_eq, begins.endsStatement_eq]
    exact Bool.false_ne_true
  refine ⟨cond', same, run.trans ((bind_of_ok (kind_run _)).trans ?_)⟩
  rw [if_neg onLine]

/-- The tokens are read as the only branch of an `if` on one line. -/
def ReadsBranch (reader : Parse Stmt) (us : List Token) (results : List (Stmt → Prop)) : Prop :=
  ∀ ⦃cond w t ws⦄, w.kind = .keyword .ifWord → ReadsAll Expr.parse ws (Expr.Same cond) →
    t.kind = .keyword .thenWord → ReadsBefore reader (w :: (ws ++ t :: us)) EndsLine fun stmt =>
      ∃ s cond' first, stmt = .branch s cond' first [] ∧ cond.Same cond' ∧ AreOf results first

/-- The tokens are read as the two branches of an `if` on one line. -/
def ReadsBranches (reader : Parse Stmt) (us us' : List Token) (results results' : List (Stmt → Prop)) :
    Prop :=
  ∀ ⦃cond w t e ws⦄, w.kind = .keyword .ifWord → ReadsAll Expr.parse ws (Expr.Same cond) →
    t.kind = .keyword .thenWord → e.kind = .keyword .elseWord →
      ReadsBefore reader (w :: (ws ++ t :: (us ++ e :: us'))) EndsLine fun stmt =>
        ∃ s cond' first second, stmt = .branch s cond' first second ∧ cond.Same cond' ∧
          AreOf results first ∧ AreOf results' second

/-- A reader of statements goes on with the reader of `if` where one starts. -/
def ReadsIf (whole reader : Parse Stmt) : Prop :=
  ∀ ⦃w ts p⦄, w.kind = .keyword .ifWord → whole ⟨w :: ts, p⟩ = ifStatement reader ⟨w :: ts, p⟩

theorem readsIf_parseAt (bound : Nat) (around : Enclosing) :
    ReadsIf (Stmt.parseAt (bound + 1) around) (Stmt.parseAt bound around) := by
  intro w ts p hw
  obtain ⟨kind, span, spaced, adjacent⟩ := w
  obtain rfl : kind = .keyword .ifWord := hw
  rfl

variable {whole : Parse Stmt}

theorem IsLine.readsBranch (h : IsLine tss us) (hwhole : ReadsIf whole reader)
    (reads : List.Forall₂ (ReadsOne reader) tss results) : ReadsBranch whole us results := by
  intro cond w t ws hw hcond ht rest p ends
  obtain ⟨cond', same, run⟩ := ifStatement_run (h.begins reads rest) hw hcond ht p
  obtain ⟨first, q, hfirst, hline⟩ := h.line reads ends.endsBranch t.span
  refine ⟨.branch (w.span.merge q) cond' first [], q, ⟨_, cond', first, rfl, same, hfirst⟩, ?_⟩
  have alone : acceptKeyword .elseWord ⟨rest, q⟩ = .ok (false, ⟨rest, q⟩) := by
    refine accept_no (Bool.eq_false_iff.mpr fun other => ?_)
    have ends := ends.1
    rw [← Cursor.kind_mk_eq rest q, TokenKind.isKeyword_iff.mp other] at ends
    cases ends
  rw [List.cons_append, List.append_assoc, hwhole hw]
  exact run.trans ((bind_of_ok hline).trans (bind_of_ok alone))

theorem IsLine.readsBranches (h : IsLine tss us) (h' : IsLine tss' us') (hwhole : ReadsIf whole reader)
    (reads : List.Forall₂ (ReadsOne reader) tss results)
    (reads' : List.Forall₂ (ReadsOne reader) tss' results') :
    ReadsBranches whole us us' results results' := by
  intro cond w t e ws hw hcond ht he rest p ends
  obtain ⟨cond', same, run⟩ := ifStatement_run (h.begins reads (e :: (us' ++ rest))) hw hcond ht p
  have between : EndsBranch (next (e :: (us' ++ rest))) := by
    rw [Token.next_cons, he]
    exact ⟨.inr rfl, nofun⟩
  obtain ⟨first, q, hfirst, hline⟩ := h.line reads between t.span
  obtain ⟨second, q', hsecond, hline'⟩ := h'.line reads' ends.endsBranch e.span
  refine ⟨.branch (w.span.merge q') cond' first second, q',
    ⟨_, cond', first, second, rfl, same, hfirst, hsecond⟩, ?_⟩
  rw [List.cons_append, List.append_assoc, List.cons_append, List.append_assoc, List.cons_append,
    hwhole hw]
  refine run.trans ((bind_of_ok hline).trans ((bind_of_ok (acceptKeyword_cons he)).trans ?_))
  exact bind_of_ok hline'

/-! ## All places -/

/-- The tokens, or others, are read as a statement. -/
def ReadsOr (ts : List Token) (result : Stmt → Prop) (reader : Parse Stmt) (us : List Token)
    (other : Stmt → Prop) : Prop :=
  us = ts ∧ other = result ∨ ReadsStatement reader us other

/-- In all places the tokens are read as a statement of a certain kind: by every reader of statements,
in front of whatever ends a statement; among the statements of a page or a block; and in either branch
of an `if` on one line, whatever other statements stand there. -/
structure ReadsEverywhere (ts : List Token) (result : Stmt → Prop) : Prop where
  statement (bound : Nat) (around : Enclosing) :
    ReadsStatement (Stmt.parseAt (bound + 1) around) ts result
  among (bound : Nat) (around : Enclosing) : ReadsAmong (Stmt.parseAt (bound + 1) around) ts result
  branch (bound : Nat) (around : Enclosing) {tss : List (List Token)} {us : List Token}
    {results : List (Stmt → Prop)} (line : IsLine tss us)
    (reads : List.Forall₂ (ReadsOr ts result (Stmt.parseAt (bound + 1) around)) tss results) :
    ReadsBranch (Stmt.parseAt (bound + 2) around) us results
  branches (bound : Nat) (around : Enclosing) {tss tss' : List (List Token)} {us us' : List Token}
    {results results' : List (Stmt → Prop)} (line : IsLine tss us) (line' : IsLine tss' us')
    (reads : List.Forall₂ (ReadsOr ts result (Stmt.parseAt (bound + 1) around)) tss results)
    (reads' : List.Forall₂ (ReadsOr ts result (Stmt.parseAt (bound + 1) around)) tss' results') :
    ReadsBranches (Stmt.parseAt (bound + 2) around) us us' results results'

/-- Statements on a line, all of which the reader reads. -/
theorem ReadsStatement.ones {bound : Nat} {around : Enclosing} {tss : List (List Token)}
    {results : List (Stmt → Prop)} (h : ReadsStatement (Stmt.parseAt (bound + 1) around) ts result)
    (reads : List.Forall₂ (ReadsOr ts result (Stmt.parseAt (bound + 1) around)) tss results) :
    List.Forall₂ (ReadsOne (Stmt.parseAt (bound + 1) around)) tss results :=
  reads.imp fun us other h' => by
    obtain ⟨rfl, rfl⟩ | h' := h'
    · exact h.one
    · exact h'.one

theorem readsEverywhere
    (h : ∀ inner around, ReadsBefore (statementWith inner around) ts TokenKind.EndsCall result)
    (starts : ∀ rest, StartsWith (next (ts ++ rest))) : ReadsEverywhere ts result := by
  have statement (bound : Nat) (around : Enclosing) :
      ReadsStatement (Stmt.parseAt (bound + 1) around) ts result := ⟨h _ _, starts⟩
  exact {
    statement
    among := fun bound around => (statement bound around).among
    branch := fun _ _ _ _ _ line reads => line.readsBranch (readsIf_parseAt _ _)
      ((statement _ _).ones reads)
    branches := fun _ _ _ _ _ _ _ _ line line' reads reads' =>
      line.readsBranches line' (readsIf_parseAt _ _) ((statement _ _).ones reads)
        ((statement _ _).ones reads') }

/-- The tokens, or others, are read as a statement, whatever it begins with. -/
def FoundOr (ts : List Token) (result : Stmt → Prop) (reader : Parse Stmt) (us : List Token)
    (other : Stmt → Prop) : Prop :=
  us = ts ∧ other = result ∨ ReadsOne reader us other

/-- In all places the tokens are read as a statement of a certain kind, whatever it begins with and
whatever other statements stand there. -/
structure FoundEverywhere (ts : List Token) (result : Stmt → Prop) : Prop where
  statement (bound : Nat) (around : Enclosing) : ReadsOne (Stmt.parseAt (bound + 1) around) ts result
  among (bound : Nat) (around : Enclosing) : FoundAmong (Stmt.parseAt (bound + 1) around) ts result
  branch (bound : Nat) (around : Enclosing) {tss : List (List Token)} {us : List Token}
    {results : List (Stmt → Prop)} (line : IsLine tss us)
    (reads : List.Forall₂ (FoundOr ts result (Stmt.parseAt (bound + 1) around)) tss results) :
    ReadsBranch (Stmt.parseAt (bound + 2) around) us results
  branches (bound : Nat) (around : Enclosing) {tss tss' : List (List Token)} {us us' : List Token}
    {results results' : List (Stmt → Prop)} (line : IsLine tss us) (line' : IsLine tss' us')
    (reads : List.Forall₂ (FoundOr ts result (Stmt.parseAt (bound + 1) around)) tss results)
    (reads' : List.Forall₂ (FoundOr ts result (Stmt.parseAt (bound + 1) around)) tss' results') :
    ReadsBranches (Stmt.parseAt (bound + 2) around) us us' results results'

theorem foundEverywhere
    (h : ∀ inner around, ReadsBefore (statementWith inner around) ts TokenKind.EndsCall result)
    (begins : ∀ rest, Begins (next (ts ++ rest))) : FoundEverywhere ts result := by
  have statement (bound : Nat) (around : Enclosing) :
      ReadsOne (Stmt.parseAt (bound + 1) around) ts result := ⟨h _ _, begins⟩
  have all {bound : Nat} {around : Enclosing} {tss : List (List Token)}
      {results : List (Stmt → Prop)}
      (reads : List.Forall₂ (FoundOr ts result (Stmt.parseAt (bound + 1) around)) tss results) :
      List.Forall₂ (ReadsOne (Stmt.parseAt (bound + 1) around)) tss results :=
    reads.imp fun us other h => by
      obtain ⟨rfl, rfl⟩ | h := h
      · exact statement bound around
      · exact h
  exact {
    statement
    among := fun bound around => (statement bound around).among
    branch := fun _ _ _ _ _ line reads => line.readsBranch (readsIf_parseAt _ _) (all reads)
    branches := fun _ _ _ _ _ _ _ _ line line' reads reads' =>
      line.readsBranches line' (readsIf_parseAt _ _) (all reads) (all reads') }

end Stmt

end PageScript
