import PageScript.Proofs.Syntax.Abreast.Basic

/-!
# Proofs/Syntax/Abreast/Readers — readers side by side

`Parse.Abreast` compares two readers from two cursors abreast.  The rules follow the ways in which
readers are built: steps in a row, looks at the token at the cursor, and tokens taken.  Loops of both
readers may count down from different numbers, as long as neither is below the number of tokens left.
-/

namespace PageScript

variable {V : Sight} {extra least i j n n' : Nat} {c d c' d' : Cursor}

/-- Expressions that look alike. -/
abbrev Expr.SeenAs (V : Sight) (e e' : Expr) : Prop := e.seen V = e'.seen V

/-- Statements that look alike. -/
abbrev Stmt.SeenAs (V : Sight) (stmt stmt' : Stmt) : Prop := stmt.seen V = stmt'.seen V

/-- Lists of statements that look alike. -/
abbrev Stmt.AllSeenAs (V : Sight) (body body' : List Stmt) : Prop :=
  Stmt.seenAll V body = Stmt.seenAll V body'

/-- Spans that look alike. -/
abbrev Span.SeenAs (V : Sight) (s s' : Span) : Prop := V.of s = V.of s'

theorem Expr.SeenAs.span {e e' : Expr} (h : e.SeenAs V e') : e.span.SeenAs V e'.span := by
  rw [Span.SeenAs, ← Expr.span_seen, ← Expr.span_seen, h]

namespace Parse

variable {α β γ δ : Type} {p : Parse α} {p' : Parse β} {R : α → β → Prop} {f : α → Parse γ}
  {g : β → Parse δ} {R' : γ → δ → Prop} {a : α} {b : β}

/-- What two readers may come to: like results and cursors abreast further on, or the same error at
places that look alike, about a token there. -/
inductive Outcomes (V : Sight) (extra least : Nat) (R : α → β → Prop) (c d : Cursor) :
    Except SyntaxError (α × Cursor) → Except SyntaxError (β × Cursor) → Prop
  | done {a : α} {b : β} {c' d' : Cursor} (same : R a b)
      (onward : Cursor.Onward V extra least c d c' d') :
      Outcomes V extra least R c d (.ok (a, c')) (.ok (b, d'))
  | failed {e e' : SyntaxError} (cause : e.cause = e'.cause) (span : e.span.SeenAs V e'.span)
      (stops : c.StopsAt e) : Outcomes V extra least R c d (.error e) (.error e')

/-- Errors and results from further on are errors and results from here. -/
theorem Outcomes.behind {x : Except SyntaxError (γ × Cursor)} {y : Except SyntaxError (δ × Cursor)}
    (h : Outcomes V extra j R' c' d' x y) (onward : Cursor.Onward V extra i c d c' d')
    (hle : n ≤ i + j) : Outcomes V extra n R' c d x y := by
  cases h with
  | done same onward' => exact .done same ((onward.trans onward').mono hle)
  | failed cause span stops => exact .failed cause span (onward.taken.stopsAt stops)

/-- Two readers are abreast at two cursors. -/
def Abreast (V : Sight) (extra least : Nat) (R : α → β → Prop) (p : Parse α) (p' : Parse β)
    (c d : Cursor) : Prop :=
  Outcomes V extra least R c d (p c) (p' d)

namespace Abreast

theorem mono (h : Abreast V extra i R p p' c d) {R' : α → β → Prop} (hR : ∀ a b, R a b → R' a b)
    (hle : j ≤ i) : Abreast V extra j R' p p' c d := by
  unfold Abreast at h ⊢
  generalize p c = x, p' d = y at h
  cases h with
  | done same onward => exact .done (hR _ _ same) (onward.mono hle)
  | failed cause span stops => exact .failed cause span stops

/-- Fewer tokens are asked for. -/
theorem loosen (h : Abreast V extra i R p p' c d) : Abreast V extra 0 R p p' c d :=
  h.mono (fun _ _ => id) (Nat.zero_le i)

/-- Both go on, somewhere behind the two cursors from which the outcomes are looked at. -/
theorem bindFrom {c₀ d₀ : Cursor} (h : Abreast V extra i R p p' c d)
    (onward : Cursor.Onward V extra n c₀ d₀ c d)
    (hnext : ∀ a b c' d', R a b → Cursor.Onward V extra (n + i) c₀ d₀ c' d' →
      Outcomes V extra j R' c₀ d₀ (f a c') (g b d')) :
    Outcomes V extra j R' c₀ d₀ ((p >>= f) c) ((p' >>= g) d) := by
  change Outcomes V extra j R' c₀ d₀ (Bind.bind (p c) fun q => f q.1 q.2)
    (Bind.bind (p' d) fun q => g q.1 q.2)
  unfold Abreast at h
  generalize p c = x, p' d = y at h
  cases h with
  | failed cause span stops => exact .failed cause span (onward.taken.stopsAt stops)
  | done same onward' => exact hnext _ _ _ _ same (onward.trans onward')

/-- Both go on. -/
theorem bind (h : Abreast V extra i R p p' c d)
    (hnext : ∀ a b c' d', R a b → Cursor.Onward V extra i c d c' d' →
      Abreast V extra j R' (f a) (g b) c' d') :
    Abreast V extra (i + j) R' (p >>= f) (p' >>= g) c d := by
  unfold Abreast at h
  change Outcomes V extra (i + j) R' c d (Bind.bind (p c) fun q => f q.1 q.2)
    (Bind.bind (p' d) fun q => g q.1 q.2)
  generalize p c = x, p' d = y at h
  cases h with
  | failed cause span stops => exact .failed cause span stops
  | done same onward => exact (hnext _ _ _ _ same onward).behind onward (Nat.le_refl _)

/-- Both go on with the same result. -/
theorem bindSame {p p' : Parse α} {f : α → Parse γ} {g : α → Parse δ}
    (h : Abreast V extra i Eq p p' c d)
    (hnext : ∀ a c' d', Cursor.Onward V extra i c d c' d' →
      Abreast V extra j R' (f a) (g a) c' d') :
    Abreast V extra (i + j) R' (p >>= f) (p' >>= g) c d :=
  h.bind fun a _ c' d' same onward => by
    subst same
    exact hnext a c' d' onward

/-- The results are put together from what is read. -/
theorem map {r : α → γ} {s : β → δ} (h : Abreast V extra i R p p' c d)
    (hR : ∀ a b, R a b → R' (r a) (s b)) : Abreast V extra i R' (r <$> p) (s <$> p') c d := by
  change Outcomes V extra i R' c d (Functor.map (fun q => (r q.1, q.2)) (p c))
    (Functor.map (fun q => (s q.1, q.2)) (p' d))
  unfold Abreast at h
  generalize p c = x, p' d = y at h
  cases h with
  | failed cause span stops => exact .failed cause span stops
  | done same onward => exact .done (hR _ _ same) onward

theorem ite {t : Prop} [Decidable t] {q : Parse α} {q' : Parse β}
    (h : t → Abreast V extra i R p p' c d) (h' : ¬t → Abreast V extra i R q q' c d) :
    Abreast V extra i R (if t then p else q) (if t then p' else q') c d := by
  split
  · exact h ‹_›
  · exact h' ‹_›

end Abreast

theorem abreast_pure (h : c.Abreast V extra d) (same : R a b) :
    Abreast V extra 0 R (pure a) (pure b) c d :=
  .done same (.refl h)

theorem abreast_failAt {cause cause' : Cursor → SyntaxError.Cause} (h : c.Abreast V extra d)
    (same : cause c = cause' d) (stops : c.StopsAt ⟨cause c, c.span⟩) :
    Abreast V extra least R (failAt cause) (failAt cause') c d :=
  .failed same h.span_eq stops

theorem abreast_expected (h : c.Abreast V extra d) (item : String) :
    Abreast V extra least R (expected item) (expected item) c d :=
  abreast_failAt h (congrArg (SyntaxError.Cause.expected item) h.kind_eq) (h.stopsAt_expected item)

/-! ## Looking at the tokens -/

/-- Both readers see the same token. -/
theorem abreast_kind {f : TokenKind → Parse γ} {g : TokenKind → Parse δ} (h : c.Abreast V extra d)
    (hnext : ∀ k, c.kind = k → Abreast V extra least R' (f k) (g k) c d) :
    Abreast V extra least R' (kind >>= f) (kind >>= g) c d := by
  change Outcomes V extra least R' c d (f c.kind c) (g d.kind d)
  rw [← h.kind_eq]
  exact hnext c.kind rfl

theorem abreast_get {f : Cursor → Parse γ} {g : Cursor → Parse δ}
    (hnext : Abreast V extra least R' (f c) (g d) c d) :
    Abreast V extra least R' (get >>= f) (get >>= g) c d :=
  hnext

theorem abreast_span {f : Span → Parse γ} {g : Span → Parse δ} (h : c.Abreast V extra d)
    (hnext : ∀ s s', s.SeenAs V s' → Abreast V extra least R' (f s) (g s') c d) :
    Abreast V extra least R' (span >>= f) (span >>= g) c d :=
  hnext c.span d.span h.span_eq

theorem abreast_previous {f : Span → Parse γ} {g : Span → Parse δ} (h : c.Abreast V extra d)
    (hnext : ∀ s s', s.SeenAs V s' → Abreast V extra least R' (f s) (g s') c d) :
    Abreast V extra least R' (previous >>= f) (previous >>= g) c d :=
  hnext c.previous d.previous h.previous

/-- Neither count is below the number of tokens left in the first list. -/
theorem abreast_remaining {f : Nat → Parse γ} {g : Nat → Parse δ} (h : c.Abreast V extra d)
    (hnext : ∀ n n', c.rest.length ≤ n → c.rest.length ≤ n' →
      Abreast V extra least R' (f n) (g n') c d) :
    Abreast V extra least R' (remaining >>= f) (remaining >>= g) c d :=
  hnext _ _ (Nat.le_refl _) (h.tokens.length_eq ▸ Nat.le_add_right _ _)

/-! ## Taking tokens -/

theorem abreast_advance (h : c.Abreast V extra d) (proper : c.kind.isProper = true) :
    Abreast V extra 1 (Span.SeenAs V) advance advance c d :=
  .done h.span_eq (.advance h proper)

/-- A token that passes a test is taken from both lists, or from none. -/
theorem abreast_accept {test : TokenKind → Bool} {f : Bool → Parse γ} {g : Bool → Parse δ}
    (h : c.Abreast V extra d) (proper : ∀ k, test k = true → k.isProper = true)
    (yes : ∀ c' d', test c.kind = true → Cursor.Onward V extra 1 c d c' d' →
      Abreast V extra (least - 1) R' (f true) (g true) c' d')
    (no : test c.kind = false → Abreast V extra least R' (f false) (g false) c d) :
    Abreast V extra least R' (accept test >>= f) (accept test >>= g) c d := by
  unfold Abreast
  cases hc : test c.kind with
  | true =>
    rw [bind_of_ok (accept_yes hc), bind_of_ok (accept_yes (h.kind_eq ▸ hc))]
    have onward := Cursor.Onward.advance h (proper _ hc)
    exact (yes _ _ hc onward).behind onward (by omega)
  | false =>
    rw [bind_of_ok (accept_no hc), bind_of_ok (accept_no (h.kind_eq ▸ hc))]
    exact no hc

theorem abreast_require {item : String} {test : TokenKind → Bool} (h : c.Abreast V extra d)
    (proper : ∀ k, test k = true → k.isProper = true) :
    Abreast V extra 1 (Span.SeenAs V) (require item test) (require item test) c d :=
  abreast_kind h fun k hk => .ite (fun passed => abreast_advance h (hk ▸ proper k passed))
    fun _ => abreast_expected h item

theorem isProper_of_isKeyword {k : Keyword} (kind : TokenKind) (h : kind.isKeyword k = true) :
    kind.isProper = true :=
  TokenKind.isKeyword_iff.mp h ▸ rfl

theorem isProper_of_isSymbol {s : Symbol} (kind : TokenKind) (h : kind.isSymbol s = true) :
    kind.isProper = true :=
  TokenKind.isSymbol_iff.mp h ▸ rfl

theorem isProper_of_isWord {spelling : String} (kind : TokenKind)
    (h : kind.isWord spelling = true) : kind.isProper = true := by
  cases kind with
  | ident => rfl
  | _ => nomatch h

theorem abreast_requireKeyword (k : Keyword) (h : c.Abreast V extra d) :
    Abreast V extra 1 (Span.SeenAs V) (requireKeyword k) (requireKeyword k) c d :=
  abreast_require h isProper_of_isKeyword

theorem abreast_requireSymbol (s : Symbol) (h : c.Abreast V extra d) :
    Abreast V extra 1 (Span.SeenAs V) (requireSymbol s) (requireSymbol s) c d :=
  abreast_require h isProper_of_isSymbol

theorem abreast_requireWord (spelling : String) (h : c.Abreast V extra d) :
    Abreast V extra 1 (Span.SeenAs V) (requireWord spelling) (requireWord spelling) c d :=
  abreast_require h isProper_of_isWord

/-- A token is taken, and the result does not depend on it. -/
theorem abreast_taken (h : c.Abreast V extra d) (proper : c.kind.isProper = true) (same : R a b) :
    Abreast V extra 1 R (advance >>= fun _ => pure a) (advance >>= fun _ => pure b) c d :=
  (abreast_advance h proper).bind fun _ _ _ _ _ onward => abreast_pure onward.abreast same

theorem abreast_identifier (h : c.Abreast V extra d) :
    Abreast V extra 1 Eq identifier identifier c d := by
  refine abreast_kind h fun k hk => ?_
  split
  · exact abreast_taken h (hk ▸ rfl) rfl
  · exact abreast_expected h _

theorem abreast_memberName (h : c.Abreast V extra d) :
    Abreast V extra 1 Eq memberName memberName c d := by
  refine abreast_kind h fun k hk => ?_
  split
  · exact abreast_taken h (hk ▸ rfl) rfl
  · exact abreast_taken h (hk ▸ rfl) rfl
  · exact abreast_expected h _

theorem abreast_dropSeparators (h : c.Abreast V extra d) :
    Abreast V extra 0 Eq dropSeparators dropSeparators c d :=
  .done rfl (.dropSeparators h.tokens h.previous)

/-! ## Items behind commas -/

/-- A count that is not below the number of tokens left has not run out. -/
theorem exists_succ_of_abreast (h : c.Abreast V extra d) (hn : c.rest.length ≤ n) :
    ∃ m, n = m + 1 :=
  Nat.exists_eq_add_one.mpr (Nat.lt_of_lt_of_le h.tokens.length_pos hn)

/-- Two readers of items are abreast wherever no more tokens are left than a number says. -/
abbrev AbreastWithin (V : Sight) (extra n : Nat) (R : α → β → Prop) (p : Parse α) (p' : Parse β) :
    Prop :=
  ∀ {c d : Cursor}, c.Abreast V extra d → c.rest.length ≤ n → Abreast V extra 1 R p p' c d

theorem AbreastWithin.mono {m : Nat} (h : AbreastWithin V extra n R p p') (hle : m ≤ n) :
    AbreastWithin V extra m R p p' :=
  fun habreast hm => h habreast (Nat.le_trans hm hle)

variable {item item' : Parse α} {see : α → γ}

theorem abreast_commaSeparated {bound bound' : Nat} (h : c.Abreast V extra d)
    (hitem : AbreastWithin V extra c.rest.length (fun a b => see a = see b) item item')
    (hbound : c.rest.length ≤ bound) (hbound' : c.rest.length ≤ bound') :
    Abreast V extra 1 (fun as bs => as.map see = bs.map see) (commaSeparated item bound)
      (commaSeparated item' bound') c d := by
  induction bound generalizing bound' c d with
  | zero => exact absurd h.tokens.length_pos (Nat.not_lt.mpr hbound)
  | succ bound ih =>
    obtain ⟨bound', rfl⟩ := exists_succ_of_abreast h hbound'
    refine (hitem h (Nat.le_refl _)).bind (j := 0) fun a b c' d' same onward => ?_
    have single : [a].map see = [b].map see := congrArg ([·]) same
    refine abreast_accept onward.abreast isProper_of_isSymbol (fun c'' d'' _ onward' => ?_)
      fun _ => abreast_pure onward.abreast single
    have shorter := (onward.trans onward').taken.length_le
    refine (ih onward'.abreast (hitem.mono (by omega)) (by omega) (by omega)).bind (j := 0)
      (fun as bs _ _ further onward => abreast_pure onward.abreast ?_) |>.loosen
    exact congrArg₂ List.cons same further

theorem abreast_commaList (h : c.Abreast V extra d)
    (hitem : AbreastWithin V extra c.rest.length (fun a b => see a = see b) item item') :
    Abreast V extra 1 (fun as bs => as.map see = bs.map see) (commaList item) (commaList item')
      c d :=
  abreast_remaining h fun _ _ hn hn' => abreast_commaSeparated h hitem hn hn'

end Parse

end PageScript
