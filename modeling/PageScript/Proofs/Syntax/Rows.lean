import PageScript.Proofs.Syntax.Nesting
import PageScript.Proofs.Syntax.Steps
import PageScript.Syntax.Stmt.Parser

/-!
# Proofs/Syntax/Rows — statements read one by one

A list of statements is read piece by piece: separators, pieces of page content and statements
(`Parse.Row`).  A row says nothing of where a run of page content starts and ends.  What a row reads up
to the end of a page, the reader of statements reads as well, with the page content gathered in blocks
(`Parse.statements_of_row`).
-/

namespace PageScript

/-- The statements of a list, with the blocks of page content opened. -/
inductive Stmt.Opened : List Stmt → List Stmt → Prop
  | nil : Opened [] []
  | cons {stmt : Stmt} {body row : List Stmt} (h : Opened body row) :
      Opened (stmt :: body) (stmt :: row)
  | block {s : Span} {items body row : List Stmt} (h : Opened body row) :
      Opened (.block s items :: body) (items ++ row)

namespace Parse

variable {statement : Parse Stmt} {stop : TokenKind → Bool} {c d e : Cursor} {row : List Stmt}

/-- The end of a printed expression. -/
def closesPrint : TokenKind → Bool
  | .closeCode => true
  | _ => false

/-- A reader of statements reads a row of them, piece by piece, up to some place between two of
them. -/
inductive Row (statement : Parse Stmt) : Cursor → List Stmt → Cursor → Prop
  | nil {c : Cursor} : Row statement c [] c
  | separator {c d : Cursor} {row : List Stmt} (hc : c.kind.isSeparator = true)
      (hend : c.kind.isEnd = false) (h : Row statement c.advance row d) : Row statement c row d
  | text {c d : Cursor} {row : List Stmt} {text : String} (hc : c.kind = .text text)
      (stops : c.advance.kind.endsStatement = true) (h : Row statement c.advance row d) :
      Row statement c (writing (.literal c.span (.string text)) c.span :: row) d
  | file {c d : Cursor} {row : List Stmt} {path : String} {isVirtual : Bool}
      (hc : c.kind = .includeFile path isVirtual) (stops : c.advance.kind.endsStatement = true)
      (h : Row statement c.advance row d) :
      Row statement c (.includeFile c.span ⟨path, isVirtual⟩ none :: row) d
  | print {c d e : Cursor} {row : List Stmt} {value : Expr} (hc : c.kind = .openPrint)
      (hvalue : Expr.parse c.advance = .ok (value, e))
      (shorter : e.rest.length < c.rest.length)
      (closed : closesPrint e.kind = true ∨ e.kind.isEnd = true)
      (stops : e.advance.kind.endsStatement = true) (h : Row statement e.advance row d) :
      Row statement c (writing value (c.span.merge e.advance.previous) :: row) d
  | statement {c d e : Cursor} {row : List Stmt} {stmt : Stmt} (hc : c.kind.endsStatement = false)
      (hstmt : statement c = .ok (stmt, e)) (shorter : e.rest.length < c.rest.length)
      (stops : e.kind.endsStatement = true) (h : Row statement e row d) :
      Row statement c (stmt :: row) d

/-! ## Moving over tokens -/

theorem length_advance_le (c : Cursor) : c.advance.rest.length ≤ c.rest.length := by
  obtain ⟨ts, p⟩ := c
  cases ts with
  | nil => exact Nat.le_refl _
  | cons t ts =>
    change (if t.kind.isEnd then (⟨t :: ts, p⟩ : Cursor) else ⟨ts, t.span⟩).rest.length ≤ _
    split
    · exact Nat.le_refl _
    · exact Nat.le_succ _

theorem length_advance_lt (h : c.kind.isEnd = false) : c.advance.rest.length < c.rest.length := by
  obtain ⟨ts, p⟩ := c
  cases ts with
  | nil => nomatch h
  | cons t ts =>
    rw [Cursor.advance_cons h]
    exact Nat.lt_succ_self _

theorem dropSeparators_run (c : Cursor) :
    dropSeparators c = .ok ((), Cursor.dropSeparatorsFrom c.previous c.rest) := rfl

theorem dropSeparatorsFrom_advance (hc : c.kind.isSeparator = true) (hend : c.kind.isEnd = false) :
    Cursor.dropSeparatorsFrom c.previous c.rest =
      Cursor.dropSeparatorsFrom c.advance.previous c.advance.rest := by
  obtain ⟨ts, p⟩ := c
  cases ts with
  | nil => nomatch hend
  | cons t ts =>
    have hc : t.kind.isSeparator = true := hc
    have hend : t.kind.isEnd = false := hend
    rw [Cursor.advance_cons hend]
    exact if_pos (by rw [hc, hend]; rfl)

theorem dropSeparatorsFrom_of_not (h : c.kind.isSeparator = false ∨ c.kind.isEnd = true) :
    Cursor.dropSeparatorsFrom c.previous c.rest = c := by
  obtain ⟨ts, p⟩ := c
  cases ts with
  | nil => rfl
  | cons t ts =>
    have h : t.kind.isSeparator = false ∨ t.kind.isEnd = true := h
    refine if_neg ?_
    obtain h | h := h
    · simp [h]
    · simp [h]

/-! ## Reading what a row reads -/

theorem statements_stop {bound : Nat} (h : c.kind.isEnd = true ∨ stop c.kind = true)
    (hstop : ∀ k, stop k = true → k.isSeparator = false) :
    statements statement stop bound c = .ok ([], c) := by
  cases bound with
  | zero => rfl
  | succ bound =>
    have dropped : Cursor.dropSeparatorsFrom c.previous c.rest = c :=
      dropSeparatorsFrom_of_not (h.symm.imp_left (hstop _))
    unfold statements
    rw [bind_of_ok (dropSeparators_run c), dropped, bind_of_ok (kind_run c),
      if_pos (by obtain h | h := h <;> simp [h])]
    rfl

theorem statements_separator {bound : Nat} (hc : c.kind.isSeparator = true)
    (hend : c.kind.isEnd = false) :
    statements statement stop (bound + 1) c = statements statement stop (bound + 1) c.advance := by
  unfold statements
  refine bind_congr_run ?_
  rw [dropSeparators_run, dropSeparators_run, dropSeparatorsFrom_advance hc hend]

theorem statements_cons {bound : Nat} {stmt : Stmt} {body : List Stmt}
    (hc : c.kind.isSeparator = false) (hstop : stop c.kind = false)
    (hstmt : statement c = .ok (stmt, e)) (stops : e.kind.endsStatement = true)
    (hrest : statements statement stop bound e = .ok (body, d)) :
    statements statement stop (bound + 1) c = .ok (stmt :: body, d) := by
  have hend : c.kind.isEnd = false := by
    cases hkind : c.kind <;> rw [hkind] at hc <;> first | rfl | nomatch hc
  have ended : statementEnd e = .ok ((), e) := by
    unfold statementEnd
    rw [bind_of_ok (kind_run e), if_pos stops]
    rfl
  unfold statements
  rw [bind_of_ok (dropSeparators_run c), dropSeparatorsFrom_of_not (.inl hc),
    bind_of_ok (kind_run c), if_neg (by rw [hend, hstop]; exact Bool.false_ne_true),
    bind_of_ok hstmt, bind_of_ok ended, bind_of_ok hrest]
  rfl

theorem content_stop {bound : Nat} (h : c.kind.isMarkup = false) : content bound c = .ok ([], c) := by
  cases bound with
  | zero => rfl
  | succ bound =>
    unfold content
    refine (bind_of_ok (rfl : span c = .ok (c.span, c))).trans ((bind_of_ok (kind_run c)).trans ?_)
    cases hc : c.kind <;> rw [hc] at h <;> first | rfl | nomatch h

/-- Some page content with a piece in front. -/
def contentBehind (item : Stmt) (bound : Nat) : Parse (List Stmt) := do
  let further ← content bound
  pure (item :: further)

theorem contentBehind_of_ok {item : Stmt} {bound : Nat} {items : List Stmt}
    (h : content bound c = .ok (items, d)) : contentBehind item bound c = .ok (item :: items, d) :=
  bind_of_ok h

theorem content_text {text : String} (hc : c.kind = .text text) (bound : Nat) :
    content (bound + 1) c =
      contentBehind (writing (.literal c.span (.string text)) c.span) bound c.advance := by
  unfold content
  refine (bind_of_ok (rfl : span c = .ok (c.span, c))).trans ((bind_of_ok (kind_run c)).trans ?_)
  rw [hc]
  exact bind_of_ok (rfl : advance c = .ok (c.span, c.advance))

theorem content_file {path : String} {isVirtual : Bool} (hc : c.kind = .includeFile path isVirtual)
    (bound : Nat) :
    content (bound + 1) c =
      contentBehind (.includeFile c.span ⟨path, isVirtual⟩ none) bound c.advance := by
  unfold content
  refine (bind_of_ok (rfl : span c = .ok (c.span, c))).trans ((bind_of_ok (kind_run c)).trans ?_)
  rw [hc]
  exact bind_of_ok (rfl : advance c = .ok (c.span, c.advance))

/-- Behind a printed expression its end is passed, unless that is the end of the page. -/
theorem accept_closesPrint (closed : closesPrint e.kind = true ∨ e.kind.isEnd = true) :
    ∃ b, accept (fun found => match found with | .closeCode => true | _ => false) e =
      .ok (b, e.advance) ∧ (!b && !e.advance.kind.isEnd) = false := by
  obtain closed | ended := closed
  · refine ⟨true, accept_yes ?_, rfl⟩
    cases hkind : e.kind <;> rw [hkind] at closed <;> first | rfl | nomatch closed
  · have still : e.advance = e := by
      obtain ⟨ts, p⟩ := e
      cases ts with
      | nil => rfl
      | cons t ts => exact if_pos ended
    rw [still]
    refine ⟨false, accept_no ?_, by rw [ended]; rfl⟩
    revert ended
    generalize e.kind = k
    cases k <;> first | exact fun _ => rfl | exact nofun

theorem content_print {value : Expr} (hc : c.kind = .openPrint)
    (hvalue : Expr.parse c.advance = .ok (value, e))
    (closed : closesPrint e.kind = true ∨ e.kind.isEnd = true) (bound : Nat) :
    content (bound + 1) c =
      contentBehind (writing value (c.span.merge e.advance.previous)) bound e.advance := by
  obtain ⟨b, haccept, hb⟩ := accept_closesPrint closed
  unfold content
  refine (bind_of_ok (rfl : span c = .ok (c.span, c))).trans ((bind_of_ok (kind_run c)).trans ?_)
  rw [hc]
  refine (bind_of_ok (rfl : advance c = .ok (c.span, c.advance))).trans ((bind_of_ok hvalue).trans ?_)
  refine (bind_of_ok haccept).trans ((bind_of_ok (kind_run e.advance)).trans ?_)
  rw [hb, if_neg Bool.false_ne_true]
  exact bind_of_ok (rfl : previous e.advance = .ok (e.advance.previous, e.advance))

/-- A reader of statements reads page content as such. -/
def ReadsPage (statement : Parse Stmt) : Prop :=
  ∀ {c : Cursor}, c.kind.isMarkup = true → statement c = pageContent c

/-- Page content is a statement of its own, which the rest of the list follows. -/
theorem statements_page {bound : Nat} {items body : List Stmt} (hst : ReadsPage statement)
    (hc : c.kind.isMarkup = true) (hitems : content c.rest.length c = .ok (items, e))
    (stops : e.kind.endsStatement = true)
    (hrest : statements statement (fun _ => false) bound e = .ok (body, d)) :
    ∃ s, statements statement (fun _ => false) (bound + 1) c = .ok (.block s items :: body, d) := by
  have page : statement c = .ok (.block (c.span.merge e.previous) items, e) := by
    rw [hst hc]
    unfold pageContent
    exact (bind_of_ok (rfl : span c = .ok (c.span, c))).trans
      ((bind_of_ok (remaining_run c)).trans (bind_of_ok hitems))
  have visible : c.kind.isSeparator = false := by
    cases hkind : c.kind <;> rw [hkind] at hc <;> first | rfl | nomatch hc
  exact ⟨_, statements_cons visible rfl page stops hrest⟩

/-- What is read in place of a row. -/
def ReadsRow (statement : Parse Stmt) (c : Cursor) (row : List Stmt) (d : Cursor) : Prop :=
  ∀ bound, c.rest.length ≤ bound →
    ∃ body, statements statement (fun _ => false) bound c = .ok (body, d) ∧ Stmt.Opened body row

/-- What is read in place of a row where page content may go on: some more of it, and then the rest
of the list. -/
def ReadsOn (statement : Parse Stmt) (c : Cursor) (row : List Stmt) (d : Cursor) : Prop :=
  ∀ bound, c.rest.length ≤ bound → ∃ items e rest, content bound c = .ok (items, e) ∧
    e.kind.endsStatement = true ∧ e.rest.length ≤ c.rest.length ∧
      (c.kind.isMarkup = true → e.rest.length < c.rest.length) ∧ row = items ++ rest ∧
        ReadsRow statement e rest d

theorem ReadsRow.readsOn (h : ReadsRow statement c row d) (hc : c.kind.isMarkup = false)
    (stops : c.kind.endsStatement = true) : ReadsOn statement c row d :=
  fun _ _ => ⟨[], c, row, content_stop hc, stops, Nat.le_refl _,
    fun markup => absurd (hc.symm.trans markup) Bool.false_ne_true, rfl, h⟩

/-- One more piece of page content is read in front. -/
theorem ReadsOn.cons {item : Stmt} (h : ReadsOn statement e row d)
    (shorter : e.rest.length < c.rest.length)
    (hitem : ∀ {bound items f}, content bound e = .ok (items, f) →
      content (bound + 1) c = .ok (item :: items, f)) :
    ReadsOn statement c (item :: row) d := by
  intro bound hbound
  obtain ⟨bound, rfl⟩ : ∃ k, bound = k + 1 := ⟨bound - 1, by omega⟩
  obtain ⟨items, f, rest, hitems, stops, hle, -, rfl, hrest⟩ := h bound (by omega)
  exact ⟨item :: items, f, rest, hitem hitems, stops, by omega, fun _ => by omega, rfl, hrest⟩

/-- A list that starts with page content starts with a block of it. -/
theorem ReadsOn.readsRow (hst : ReadsPage statement) (h : ReadsOn statement c row d)
    (hc : c.kind.isMarkup = true) : ReadsRow statement c row d := by
  intro bound hbound
  obtain ⟨items, e, rest, hitems, stops, -, shorter, rfl, hrest⟩ := h c.rest.length (Nat.le_refl _)
  obtain ⟨bound, rfl⟩ : ∃ k, bound = k + 1 := ⟨bound - 1, by have := shorter hc; omega⟩
  obtain ⟨body, hbody, opened⟩ := hrest bound (by have := shorter hc; omega)
  obtain ⟨s, hpage⟩ := statements_page hst hc hitems stops hbody
  exact ⟨_, hpage, .block opened⟩

theorem readsRow_of_row (hst : ReadsPage statement) (h : Row statement c row d)
    (hd : d.kind.isEnd = true) :
    ReadsRow statement c row d ∧
      (c.kind.endsStatement = true → ReadsOn statement c row d) := by
  have markup {k : TokenKind} (h : k.isMarkup = true) : k.isEnd = false := by
    cases k <;> first | rfl | nomatch h
  induction h with
  | @nil c =>
    have here : ReadsRow statement c [] c := fun bound _ =>
      ⟨[], statements_stop (.inl hd) nofun, .nil⟩
    refine ⟨here, here.readsOn ?_⟩
    cases hkind : c.kind <;> rw [hkind] at hd <;> first | rfl | nomatch hd
  | @separator c d row hc hend _ ih =>
    obtain ⟨further, -⟩ := ih hd
    have here : ReadsRow statement c row d := by
      intro bound hbound
      have shorter := length_advance_lt hend
      obtain ⟨bound, rfl⟩ : ∃ k, bound = k + 1 := ⟨bound - 1, by omega⟩
      rw [statements_separator hc hend]
      exact further _ (by omega)
    refine ⟨here, here.readsOn ?_⟩
    cases hkind : c.kind <;> rw [hkind] at hc <;> first | rfl | nomatch hc
  | @text c d row text hc stops _ ih =>
    have here : ReadsOn statement c _ d := ((ih hd).2 stops).cons
      (length_advance_lt (hc ▸ rfl)) fun h => (content_text hc _).trans (contentBehind_of_ok h)
    exact ⟨here.readsRow hst (hc ▸ rfl), fun _ => here⟩
  | @file c d row path isVirtual hc stops _ ih =>
    have here : ReadsOn statement c _ d := ((ih hd).2 stops).cons
      (length_advance_lt (hc ▸ rfl)) fun h => (content_file hc _).trans (contentBehind_of_ok h)
    exact ⟨here.readsRow hst (hc ▸ rfl), fun _ => here⟩
  | @print c d e row value hc hvalue shorter closed stops _ ih =>
    have here : ReadsOn statement c _ d := ((ih hd).2 stops).cons
      (Nat.lt_of_le_of_lt (length_advance_le e) shorter) fun h =>
        (content_print hc hvalue closed _).trans (contentBehind_of_ok h)
    exact ⟨here.readsRow hst (hc ▸ rfl), fun _ => here⟩
  | @statement c d e row stmt hc hstmt shorter stops _ ih =>
    obtain ⟨further, -⟩ := ih hd
    refine ⟨fun bound hbound => ?_, fun stops => absurd (hc.symm.trans stops) Bool.false_ne_true⟩
    obtain ⟨bound, rfl⟩ : ∃ k, bound = k + 1 := ⟨bound - 1, by omega⟩
    obtain ⟨body, hbody, opened⟩ := further bound (by omega)
    exact ⟨_, statements_cons (Bool.or_eq_false_iff.mp hc).1 rfl hstmt stops hbody, .cons opened⟩

/-- What a row reads up to the end of a page, the reader of lists reads. -/
theorem statements_of_row (hst : ReadsPage statement) (h : Row statement c row d)
    (hd : d.kind.isEnd = true) {bound : Nat} (hbound : c.rest.length ≤ bound) :
    ∃ body, statements statement (fun _ => false) bound c = .ok (body, d) ∧ Stmt.Opened body row :=
  (readsRow_of_row hst h hd).1 bound hbound

theorem statementWith_page {inner : Enclosing → Parse Stmt} {around : Enclosing}
    (h : c.kind.isMarkup = true) : statementWith inner around c = pageContent c := by
  unfold statementWith
  refine (bind_of_ok (get_run c)).trans ?_
  cases hk : c.kind <;> rw [hk] at h <;> first | rfl | nomatch h

theorem readsPage_parseAt {bound : Nat} {around : Enclosing} :
    ReadsPage (Stmt.parseAt (bound + 1) around) :=
  statementWith_page

end Parse

end PageScript
