import PageScript.Proofs.Syntax.Abreast.Readers
import PageScript.Proofs.Syntax.Tree.Spans

/-!
# Proofs/Syntax/Tree/Readers — what a reader yields, and where it leaves the cursor

`p.Yields c Q` says that what the reader `p` comes to from the cursor `c` satisfies `Q`, if it does not
fail.  The tokens at a sound cursor stand one behind another in the source; every reader leaves a sound
cursor behind, further on if it has taken a token (`Cursor.Passes`) and no less far on in any case
(`Cursor.Keeps`).
-/

namespace PageScript

variable {hi : Nat} {c c' d d' e : Cursor} {s : Span}

/-! ## Cursors -/

/-- Tokens stand one behind another between two offsets. -/
inductive Token.Ordered (hi : Nat) : (lo : Nat) → List Token → Prop
  | nil {lo : Nat} (le : lo ≤ hi) : Ordered hi lo []
  | cons {lo : Nat} {t : Token} {ts : List Token} (le : lo ≤ t.span.start)
    (order : t.span.start ≤ t.span.stop) (rest : Ordered hi t.span.stop ts) : Ordered hi lo (t :: ts)

theorem Token.Ordered.le {lo : Nat} {ts : List Token} (h : Ordered hi lo ts) : lo ≤ hi := by
  induction h with
  | nil le => exact le
  | cons le order _ ih => exact Nat.le_trans le (Nat.le_trans order ih)

theorem Token.Ordered.mono {lo lo' : Nat} {ts : List Token} (h : Ordered hi lo ts) (le : lo' ≤ lo) :
    Ordered hi lo' ts := by
  cases h with
  | nil le' => exact .nil (Nat.le_trans le le')
  | cons le' order rest => exact .cons (Nat.le_trans le le') order rest

namespace Cursor

/-- The tokens that are left stand one behind another, behind the last one taken. -/
structure Sound (hi : Nat) (c : Cursor) : Prop where
  order : c.previous.start ≤ c.previous.stop
  rest : Token.Ordered hi c.previous.stop c.rest

/-- From one cursor to another one at least one token has been taken. -/
structure Passes (hi : Nat) (c d : Cursor) : Prop where
  sound : d.Sound hi
  le : c.previous.stop ≤ d.previous.start

/-- From one cursor to another one some tokens may have been taken. -/
structure Keeps (hi : Nat) (c d : Cursor) : Prop where
  sound : d.Sound hi
  start : c.previous.start ≤ d.previous.start
  stop : c.previous.stop ≤ d.previous.stop

theorem Sound.keeps (h : c.Sound hi) : c.Keeps hi c := ⟨h, Nat.le_refl _, Nat.le_refl _⟩

theorem Sound.stop_le (h : c.Sound hi) : c.previous.stop ≤ hi := h.rest.le

theorem Passes.stop_le (h : c.Passes hi d) : c.previous.stop ≤ d.previous.stop :=
  Nat.le_trans h.le h.sound.order

theorem Passes.keeps (h : c.Passes hi d) (hc : c.Sound hi) : c.Keeps hi d :=
  ⟨h.sound, Nat.le_trans hc.order h.le, h.stop_le⟩

theorem Passes.trans (h : c.Passes hi d) (h' : d.Passes hi e) : c.Passes hi e :=
  ⟨h'.sound, Nat.le_trans h.stop_le h'.le⟩

theorem Passes.on (h : c.Passes hi d) (h' : d.Keeps hi e) : c.Passes hi e :=
  ⟨h'.sound, Nat.le_trans h.le h'.start⟩

theorem Keeps.trans (h : c.Keeps hi d) (h' : d.Keeps hi e) : c.Keeps hi e :=
  ⟨h'.sound, Nat.le_trans h.start h'.start, Nat.le_trans h.stop h'.stop⟩

theorem Keeps.passes (h : c.Keeps hi d) (h' : d.Passes hi e) : c.Passes hi e :=
  ⟨h'.sound, Nat.le_trans h.stop h'.le⟩

/-- The token at a sound cursor. -/
theorem Sound.span (h : c.Sound hi) : c.span.Lies c.previous.stop hi := by
  obtain ⟨ts, p⟩ := c
  cases h.rest with
  | nil le => exact ⟨Nat.le_refl _, Nat.le_refl _, le⟩
  | cons le order rest => exact ⟨le, order, rest.le⟩

/-- Taking a token that does not end the page. -/
theorem Sound.advance (h : c.Sound hi) (inside : c.kind.isEnd = false) :
    c.Passes hi c.advance ∧ c.advance.previous = c.span := by
  obtain ⟨ts, p⟩ := c
  cases ts with
  | nil => nomatch inside
  | cons t ts =>
    rw [Cursor.advance_cons inside]
    cases h.rest with
    | cons le order rest => exact ⟨⟨⟨order, rest⟩, le⟩, rfl⟩

/-- Separators are taken for as long as there are any. -/
theorem Sound.dropSeparators {ts : List Token} {p : Span} (h : (Cursor.mk ts p).Sound hi) :
    (Cursor.mk ts p).Keeps hi (dropSeparatorsFrom p ts) := by
  induction ts generalizing p with
  | nil => exact h.keeps
  | cons t ts ih =>
    unfold dropSeparatorsFrom
    split
    · cases h.rest with
      | cons le order rest =>
        have passed : (Cursor.mk (t :: ts) p).Passes hi ⟨ts, t.span⟩ := ⟨⟨order, rest⟩, le⟩
        exact (passed.keeps h).trans (ih passed.sound)
    · exact h.keeps

end Cursor

/-- A span starts and ends no later than the last token taken. -/
structure Span.Upto (s : Span) (c : Cursor) : Prop where
  start : s.start ≤ c.previous.start
  stop : s.stop ≤ c.previous.stop

/-- A span starts and ends no later than the token at the cursor. -/
structure Span.At (s : Span) (c : Cursor) : Prop where
  start : s.start ≤ c.span.start
  stop : s.stop ≤ c.span.stop

namespace Span

theorem upto_previous (c : Cursor) : c.previous.Upto c := ⟨Nat.le_refl _, Nat.le_refl _⟩

theorem at_span (c : Cursor) : c.span.At c := ⟨Nat.le_refl _, Nat.le_refl _⟩

theorem Upto.on (h : s.Upto c) (keeps : c.Keeps hi d) : s.Upto d :=
  ⟨Nat.le_trans h.start keeps.start, Nat.le_trans h.stop keeps.stop⟩

theorem Lies.upto {lo : Nat} (h : s.Lies lo c.previous.stop) (passes : c.Passes hi d) : s.Upto d :=
  ⟨Nat.le_trans h.order (Nat.le_trans h.stop passes.le), Nat.le_trans h.stop passes.stop_le⟩

theorem Upto.at (h : s.Upto c) (sound : c.Sound hi) : s.At c :=
  ⟨Nat.le_trans h.start (Nat.le_trans sound.order sound.span.start),
    Nat.le_trans h.stop (Nat.le_trans sound.span.start sound.span.order)⟩

/-- From the start of a span to the last token taken. -/
theorem Upto.merge (h : s.Upto c) : s.merge c.previous = ⟨s.start, c.previous.stop⟩ :=
  merge_eq h.start h.stop

theorem Upto.lies {lo : Nat} (h : s.Upto c) (sound : c.Sound hi) (le : lo ≤ s.start) :
    (s.merge c.previous).Lies lo c.previous.stop := by
  rw [h.merge]
  exact ⟨le, Nat.le_trans h.start sound.order, Nat.le_refl _⟩

/-- The token at a cursor has been taken. -/
theorem Upto.passes (h : c.span.Upto d) (hc : c.Sound hi) (hd : d.Sound hi) : c.Passes hi d :=
  ⟨hd, Nat.le_trans hc.span.start h.start⟩

end Span

/-! ## Readers -/

namespace Parse

variable {α β : Type} {p : Parse α} {f : α → Parse β} {Q Q' : α → Cursor → Prop}
  {R : β → Cursor → Prop} {a : α}

/-- What a reader comes to, unless it fails. -/
def Yields (p : Parse α) (c : Cursor) (Q : α → Cursor → Prop) : Prop :=
  ∀ a d, p c = .ok (a, d) → Q a d

theorem Yields.mono (h : Yields p c Q) (hQ : ∀ a d, Q a d → Q' a d) : Yields p c Q' :=
  fun a d hr => hQ a d (h a d hr)

theorem Yields.bind (h : Yields p c Q) (hnext : ∀ a d, Q a d → Yields (f a) d R) :
    Yields (p >>= f) c R := by
  intro b e hr
  obtain ⟨a, d, ha, hb⟩ := exists_of_bind hr
  exact hnext a d (h a d ha) b e hb

theorem Yields.map {g : α → β} (h : Yields p c Q) (hR : ∀ a d, Q a d → R (g a) d) :
    Yields (g <$> p) c R := by
  rw [← bind_pure_comp]
  exact h.bind fun a d ha b e hb => by
    cases hb
    exact hR a d ha

/-- A reader that does at a cursor what another one does elsewhere. -/
theorem Yields.of_run_eq {p' : Parse α} (same : p c = p' d) (h : Yields p' d Q) : Yields p c Q :=
  fun a e hr => h a e (same.symm.trans hr)

/-- What a reader comes to on its own. -/
theorem Yields.exists_of_first (h : Yields p c Q)
    (hr : (p c >>= fun read => pure read.1) = .ok a) : ∃ d, Q a d := by
  cases hp : p c with
  | error => rw [hp] at hr; nomatch hr
  | ok read =>
    rw [hp] at hr
    cases hr
    exact ⟨read.2, h _ _ hp⟩

theorem yields_pure (h : Q a c) : Yields (pure a) c Q := by
  rintro _ _ ⟨⟩
  exact h

theorem yields_expected (item : String) : Yields (expected item) c Q := nofun

theorem yields_failAt (cause : Cursor → SyntaxError.Cause) : Yields (failAt cause) c Q := nofun

theorem Yields.ite {t : Prop} [Decidable t] {p' : Parse α} (h : t → Yields p c Q)
    (h' : ¬ t → Yields p' c Q) : Yields (if t then p else p') c Q := by
  split
  · exact h ‹_›
  · exact h' ‹_›

/-! ## Looks at the cursor -/

theorem yields_kind {f : TokenKind → Parse β} (h : Yields (f c.kind) c R) :
    Yields (kind >>= f) c R :=
  h

theorem yields_span {f : Span → Parse β} (h : Yields (f c.span) c R) : Yields (span >>= f) c R := h

theorem yields_previous {f : Span → Parse β} (h : Yields (f c.previous) c R) :
    Yields (previous >>= f) c R :=
  h

theorem yields_remaining {f : Nat → Parse β} (h : Yields (f c.rest.length) c R) :
    Yields (remaining >>= f) c R :=
  h

theorem yields_get {f : Cursor → Parse β} (h : Yields (f c) c R) : Yields (get >>= f) c R := h

/-! ## Tokens -/

theorem isEnd_of_isKeyword {k : Keyword} : ∀ found, TokenKind.isKeyword k found = true →
    found.isEnd = false :=
  fun found h => TokenKind.isEnd_of_isProper (isProper_of_isKeyword found h)

theorem isEnd_of_isSymbol {s : Symbol} : ∀ found, TokenKind.isSymbol s found = true →
    found.isEnd = false :=
  fun found h => TokenKind.isEnd_of_isProper (isProper_of_isSymbol found h)

theorem isEnd_of_isWord {spelling : String} : ∀ found, TokenKind.isWord spelling found = true →
    found.isEnd = false :=
  fun found h => TokenKind.isEnd_of_isProper (isProper_of_isWord found h)

/-- The token at the cursor has been taken. -/
structure Took (hi : Nat) (c d : Cursor) : Prop extends c.Passes hi d where
  previous : d.previous = c.span

theorem Took.keeps (h : Took hi c d) (hc : c.Sound hi) : c.Keeps hi d := h.toPasses.keeps hc

/-- It lies between the last token taken before and the cursor. -/
theorem Took.lies (h : Took hi c d) : d.previous.Lies c.previous.stop d.previous.stop :=
  ⟨h.le, h.sound.order, Nat.le_refl _⟩

theorem Took.span (h : Took hi c d) : c.span.Lies c.previous.stop d.previous.stop := by
  rw [← h.previous]
  exact h.lies

/-- A span that starts no later than the token. -/
theorem Took.upto (h : Took hi c d) (hs : s.At c) : s.Upto d :=
  ⟨h.previous ▸ hs.start, h.previous ▸ hs.stop⟩

theorem yields_advance (h : c.Sound hi) (inside : c.kind.isEnd = false) :
    Yields advance c fun s d => Took hi c d ∧ s = d.previous := by
  rintro _ _ ⟨⟩
  obtain ⟨passes, previous⟩ := h.advance inside
  exact ⟨⟨passes, previous⟩, previous.symm⟩

/-- A token that passes a test is taken or not. -/
theorem yields_accept {test : TokenKind → Bool} {f : Bool → Parse β} (h : c.Sound hi)
    (proper : ∀ found, test found = true → found.isEnd = false)
    (yes : ∀ d, Took hi c d → Yields (f true) d R) (no : Yields (f false) c R) :
    Yields (accept test >>= f) c R := by
  intro b e hr
  cases passed : test c.kind with
  | true =>
    obtain ⟨passes, previous⟩ := h.advance (proper _ passed)
    exact yes _ ⟨passes, previous⟩ b e ((bind_of_ok (accept_yes passed)).symm.trans hr)
  | false => exact no b e ((bind_of_ok (accept_no passed)).symm.trans hr)

theorem yields_require {item : String} {test : TokenKind → Bool} (h : c.Sound hi)
    (proper : ∀ found, test found = true → found.isEnd = false) :
    Yields (require item test) c fun s d => Took hi c d ∧ s = d.previous :=
  yields_kind (.ite (fun passed => yields_advance h (proper _ passed)) fun _ => yields_expected _)

theorem yields_requireKeyword (k : Keyword) (h : c.Sound hi) :
    Yields (requireKeyword k) c fun s d => Took hi c d ∧ s = d.previous :=
  yields_require h isEnd_of_isKeyword

theorem yields_requireSymbol (s : Symbol) (h : c.Sound hi) :
    Yields (requireSymbol s) c fun s d => Took hi c d ∧ s = d.previous :=
  yields_require h isEnd_of_isSymbol

theorem yields_requireWord (spelling : String) (h : c.Sound hi) :
    Yields (requireWord spelling) c fun s d => Took hi c d ∧ s = d.previous :=
  yields_require h isEnd_of_isWord

theorem yields_identifier (h : c.Sound hi) : Yields identifier c fun _ d => Took hi c d := by
  refine yields_kind ?_
  cases hk : c.kind with
  | ident => exact (yields_advance h (hk ▸ rfl)).bind fun _ _ took => yields_pure took.1
  | _ => exact yields_expected _

theorem yields_memberName (h : c.Sound hi) : Yields memberName c fun _ d => Took hi c d := by
  refine yields_kind ?_
  cases hk : c.kind with
  | ident | keyword =>
    exact (yields_advance h (hk ▸ rfl)).bind fun _ _ took => yields_pure took.1
  | _ => exact yields_expected _

theorem yields_dropSeparators (h : c.Sound hi) :
    Yields dropSeparators c fun _ d => c.Keeps hi d := by
  rintro _ _ ⟨⟩
  exact h.dropSeparators

theorem yields_statementEnd : Yields statementEnd c fun _ d => d = c :=
  yields_kind (.ite (fun _ => yields_pure rfl) fun _ => yields_expected _)

/-! ## Lists -/

/-- A reader of something that lies where it was read. -/
def ReadsIn (hi : Nat) (p : Parse α) (P : (lo hi : Nat) → α → Prop) : Prop :=
  ∀ {c : Cursor}, c.Sound hi →
    Yields p c fun a d => c.Passes hi d ∧ P c.previous.stop d.previous.stop a

theorem yields_commaSeparated {item : Parse α} {P : (lo hi : Nat) → α → Prop}
    (hitem : ReadsIn hi item P) : ∀ (bound : Nat) {c : Cursor}, c.Sound hi →
      Yields (commaSeparated item bound) c fun as d =>
        c.Passes hi d ∧ InRow P c.previous.stop d.previous.stop as ∧ as ≠ []
  | 0, _, h => (hitem h).bind fun _ _ ⟨passes, first⟩ =>
    yields_pure ⟨passes, .single first passes.stop_le, List.cons_ne_nil _ _⟩
  | bound + 1, _, h => (hitem h).bind fun _ _ ⟨passes, first⟩ =>
    yields_accept passes.sound isEnd_of_isSymbol
      (fun _ comma => (yields_commaSeparated hitem bound comma.sound).bind fun _ _ ⟨more, row, _⟩ =>
        yields_pure ⟨(passes.trans comma.toPasses).trans more,
          .cons first passes.stop_le comma.stop_le row, List.cons_ne_nil _ _⟩)
      (yields_pure ⟨passes, .single first passes.stop_le, List.cons_ne_nil _ _⟩)

theorem yields_commaList {item : Parse α} {P : (lo hi : Nat) → α → Prop}
    (hitem : ReadsIn hi item P) (h : c.Sound hi) :
    Yields (commaList item) c fun as d =>
      c.Passes hi d ∧ InRow P c.previous.stop d.previous.stop as ∧ as ≠ [] :=
  yields_remaining (yields_commaSeparated hitem _ h)

end Parse

end PageScript
