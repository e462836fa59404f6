import PageScript.Proofs.Syntax.Abreast.Sight
import PageScript.Proofs.Syntax.Steps

/-!
# Proofs/Syntax/Abreast/Basic — two readings side by side

Two cursors are abreast if the same kinds of token are left at both, up to the token that ends the
page; what may be left behind that token is never looked at.  Two readers are abreast
(`Parse.Abreast`) if they come to like results, or fail alike, and stay abreast; there is one rule for
each way to build a reader.  On the way each judgement records what the reader takes: only proper
tokens, and at least so many of them.
-/

namespace PageScript

/-- A token that a reader may take: no invalid text, and not the end of the page. -/
def TokenKind.isProper : TokenKind → Bool
  | invalid | endOfPage => false
  | _ => true

theorem TokenKind.isEnd_of_isProper {kind : TokenKind} (h : kind.isProper = true) :
    kind.isEnd = false := by
  cases kind <;> first | rfl | nomatch h

theorem TokenKind.isProper_of_isSeparator {kind : TokenKind} (h : kind.isSeparator = true)
    (inside : kind.isEnd = false) : kind.isProper = true := by
  cases kind with
  | endOfPage => nomatch inside
  | invalid => nomatch h
  | _ => rfl

/-! ## What one reader takes -/

/-- The cursor has come on to another one over proper tokens, so many at least. -/
def Cursor.Takes (least : Nat) (c d : Cursor) : Prop :=
  ∃ taken, c.rest = taken ++ d.rest ∧ least ≤ taken.length ∧ ∀ t ∈ taken, t.kind.isProper = true

/-- The span is that of a token at the cursor or behind it, with only proper tokens in between. -/
def Cursor.Meets (c : Cursor) (s : Span) : Prop :=
  ∃ taken t rest, c.rest = taken ++ t :: rest ∧ (∀ t ∈ taken, t.kind.isProper = true) ∧ t.span = s

/-- The error is about a token: it has its place, and what it says was found is what the token is.
No token is to blame for a bound that was reached. -/
def SyntaxError.IsAbout (e : SyntaxError) (t : Token) : Prop :=
  e.span = t.span ∧ match e.cause with
    | .expected _ found => t.kind = found
    | .propertyOutsideClass => t.kind = .keyword .propertyWord
    | .nestedDeclaration word => t.kind.reservedSpelling? = some word
    | .exhausted => False

/-- The error is about a token at the cursor or behind it, with only proper tokens in between. -/
def Cursor.StopsAt (c : Cursor) (e : SyntaxError) : Prop :=
  ∃ taken t rest, c.rest = taken ++ t :: rest ∧ (∀ t ∈ taken, t.kind.isProper = true) ∧ e.IsAbout t

namespace Cursor

variable {c d e : Cursor} {i j : Nat} {error : SyntaxError}

theorem Takes.refl (c : Cursor) : c.Takes 0 c := ⟨[], rfl, Nat.le_refl 0, nofun⟩

theorem Takes.trans (h : c.Takes i d) (h' : d.Takes j e) : c.Takes (i + j) e := by
  obtain ⟨taken, hc, hi, proper⟩ := h
  obtain ⟨taken', hd, hj, proper'⟩ := h'
  refine ⟨taken ++ taken', ?_, ?_, fun t ht => ?_⟩
  · rw [hc, hd, List.append_assoc]
  · rw [List.length_append]
    omega
  · exact (List.mem_append.mp ht).elim (proper t) (proper' t)

theorem Takes.mono (h : c.Takes i d) (hle : j ≤ i) : c.Takes j d := by
  obtain ⟨taken, hc, hi, proper⟩ := h
  exact ⟨taken, hc, Nat.le_trans hle hi, proper⟩

theorem Takes.length_le (h : c.Takes i d) : d.rest.length + i ≤ c.rest.length := by
  obtain ⟨taken, hc, hi, -⟩ := h
  rw [hc, List.length_append]
  omega

theorem Takes.stopsAt (h : c.Takes i d) (stops : d.StopsAt error) : c.StopsAt error := by
  obtain ⟨taken, hc, -, proper⟩ := h
  obtain ⟨taken', t, rest, hd, proper', ht⟩ := stops
  refine ⟨taken ++ taken', t, rest, ?_, fun t ht => ?_, ht⟩
  · rw [hc, hd, List.append_assoc]
  · exact (List.mem_append.mp ht).elim (proper t) (proper' t)

theorem StopsAt.meets (h : c.StopsAt error) : c.Meets error.span := by
  obtain ⟨taken, t, rest, hc, proper, place, -⟩ := h
  exact ⟨taken, t, rest, hc, proper, place.symm⟩

/-- Where a token is to blame, no bound was reached. -/
theorem StopsAt.ne_exhausted (h : c.StopsAt error) : error.cause ≠ .exhausted := by
  obtain ⟨_, t, _, -, -, -, about⟩ := h
  intro exhausted
  rwa [exhausted] at about

end Cursor

/-! ## Cursors abreast -/

/-- The same kinds of token up to the one that ends the page, with places that look alike, and in the
second list so many tokens behind that.  Whether a symbol touches what is before it is the same. -/
inductive Token.Abreast (V : Sight) (extra : Nat) : List Token → List Token → Prop
  | last {t u : Token} {behind : List Token} (ht : t.kind = .endOfPage) (kind : t.kind = u.kind)
      (span : V.of t.span = V.of u.span) (count : behind.length = extra) :
      Abreast V extra [t] (u :: behind)
  | cons {t u : Token} {ts us : List Token} (ht : t.kind.isEnd = false) (kind : t.kind = u.kind)
      (span : V.of t.span = V.of u.span)
      (adjacent : ∀ s, t.kind = .symbol s → t.adjacent = u.adjacent) (h : Abreast V extra ts us) :
      Abreast V extra (t :: ts) (u :: us)

/-- The tokens that are left are abreast, and the last ones taken look alike. -/
structure Cursor.Abreast (V : Sight) (extra : Nat) (c d : Cursor) : Prop where
  tokens : Token.Abreast V extra c.rest d.rest
  previous : V.of c.previous = V.of d.previous

variable {V : Sight} {extra least i j : Nat} {c d c' d' c'' d'' : Cursor}

namespace Token.Abreast

variable {ts us : List Token}

theorem length_eq (h : Abreast V extra ts us) : us.length = ts.length + extra := by
  induction h with
  | last _ _ _ count =>
    simp only [List.length_cons, count]
    exact Nat.add_comm _ _
  | cons _ _ _ _ _ ih =>
    simp only [List.length_cons, ih]
    exact Nat.succ_add _ _ ▸ rfl

theorem length_pos (h : Abreast V extra ts us) : 0 < ts.length := by
  cases h <;> exact Nat.succ_pos _

/-- A parenthesis is closed behind as many tokens. -/
theorem afterClosing? (h : Abreast V extra ts us) (depth : Nat) :
    Option.Rel (fun rest rest' => rest'.length = rest.length + extra)
      (Cursor.afterClosing? depth ts) (Cursor.afterClosing? depth us) := by
  induction h generalizing depth with
  | last ht kind =>
    simp only [Cursor.afterClosing?, ht, ← kind]
    exact .none
  | @cons t u ts us ht kind _ _ h ih =>
    simp only [Cursor.afterClosing?, ← kind]
    cases t.kind with
    | symbol s =>
      cases s with
      | lparen => exact ih _
      | rparen =>
        cases depth with
        | zero => exact .none
        | succ depth =>
          cases depth with
          | zero => exact .some h.length_eq
          | succ depth => exact ih _
      | _ => exact ih _
    | lineBreak | closeCode | endOfPage => exact .none
    | _ => exact ih _

end Token.Abreast

namespace Cursor.Abreast

theorem kind_eq (h : c.Abreast V extra d) : c.kind = d.kind := by
  obtain ⟨ts, p⟩ := c
  obtain ⟨us, q⟩ := d
  obtain ⟨tokens, -⟩ := h
  cases tokens with
  | last _ kind => exact kind
  | cons _ kind => exact kind

theorem span_eq (h : c.Abreast V extra d) : V.of c.span = V.of d.span := by
  obtain ⟨ts, p⟩ := c
  obtain ⟨us, q⟩ := d
  obtain ⟨tokens, -⟩ := h
  cases tokens with
  | last _ _ span => exact span
  | cons _ _ span => exact span

/-- A token that does not end the page has its counterpart. -/
theorem cons_inv (h : c.Abreast V extra d) (inside : c.kind.isEnd = false) :
    ∃ t ts p u us q, c = ⟨t :: ts, p⟩ ∧ d = ⟨u :: us, q⟩ ∧ t.kind.isEnd = false ∧
      t.kind = u.kind ∧ V.of t.span = V.of u.span ∧
        (∀ s, t.kind = .symbol s → t.adjacent = u.adjacent) ∧ Token.Abreast V extra ts us := by
  obtain ⟨ts, p⟩ := c
  obtain ⟨us, q⟩ := d
  obtain ⟨tokens, -⟩ := h
  cases tokens with
  | @last t _ _ ht =>
    have inside : t.kind.isEnd = false := inside
    rw [ht] at inside
    nomatch inside
  | cons ht kind span adjacent h =>
    exact ⟨_, _, _, _, _, _, rfl, rfl, ht, kind, span, adjacent, h⟩

theorem isAdjacent_eq (h : c.Abreast V extra d) {s : Symbol} (hs : c.kind = .symbol s) :
    c.isAdjacent = d.isAdjacent := by
  obtain ⟨_, _, _, _, _, _, rfl, rfl, _, _, _, adjacent, _⟩ := h.cons_inv (hs ▸ rfl)
  exact adjacent s hs

theorem nextKind_eq (h : c.Abreast V extra d) (inside : c.kind.isEnd = false) :
    c.nextKind = d.nextKind := by
  obtain ⟨_, _, _, _, _, _, rfl, rfl, _, _, _, _, h⟩ := h.cons_inv inside
  cases h with
  | last _ kind => exact kind
  | cons _ kind => exact kind

/-- There is a token at the cursor, with the kind and the span that the cursor has. -/
theorem exists_rest_eq_cons (h : c.Abreast V extra d) :
    ∃ t ts, c.rest = t :: ts ∧ c.kind = t.kind ∧ c.span = t.span := by
  obtain ⟨ts, p⟩ := c
  cases ts with
  | nil => exact absurd h.tokens.length_pos (Nat.lt_irrefl 0)
  | cons t ts => exact ⟨t, ts, rfl, rfl, rfl⟩

/-- An error that says what is found at the cursor is about the token there. -/
theorem stopsAt_expected (h : c.Abreast V extra d) (item : String) :
    c.StopsAt ⟨.expected item c.kind, c.span⟩ := by
  obtain ⟨t, ts, hrest, kind, span⟩ := h.exists_rest_eq_cons
  exact ⟨[], t, ts, hrest, nofun, span, kind.symm⟩

theorem stopsAt_propertyOutsideClass (h : c.Abreast V extra d)
    (hk : c.kind = .keyword .propertyWord) : c.StopsAt ⟨.propertyOutsideClass, c.span⟩ := by
  obtain ⟨t, ts, hrest, kind, span⟩ := h.exists_rest_eq_cons
  exact ⟨[], t, ts, hrest, nofun, span, kind.symm.trans hk⟩

theorem stopsAt_nestedDeclaration (h : c.Abreast V extra d) {word : Keyword}
    (hk : c.kind = .keyword word) (other : String) :
    c.StopsAt ⟨.nestedDeclaration (c.kind.reservedSpelling?.getD other), c.span⟩ := by
  obtain ⟨t, ts, hrest, kind, span⟩ := h.exists_rest_eq_cons
  refine ⟨[], t, ts, hrest, nofun, span, ?_⟩
  rw [hk] at kind ⊢
  rw [← kind]
  rfl

end Cursor.Abreast

/-- Two cursors have come on from two others over proper tokens, so many at least, and are abreast. -/
structure Cursor.Onward (V : Sight) (extra least : Nat) (c d c' d' : Cursor) : Prop where
  abreast : c'.Abreast V extra d'
  taken : c.Takes least c'

namespace Cursor.Onward

theorem refl (h : c.Abreast V extra d) : Onward V extra 0 c d c d := ⟨h, .refl c⟩

theorem trans (h : Onward V extra i c d c' d') (h' : Onward V extra j c' d' c'' d'') :
    Onward V extra (i + j) c d c'' d'' :=
  ⟨h'.abreast, h.taken.trans h'.taken⟩

theorem mono (h : Onward V extra i c d c' d') (hle : j ≤ i) : Onward V extra j c d c' d' :=
  ⟨h.abreast, h.taken.mono hle⟩

/-- A proper token is passed in both lists. -/
theorem advance (h : c.Abreast V extra d) (proper : c.kind.isProper = true) :
    Onward V extra 1 c d c.advance d.advance := by
  obtain ⟨t, ts, p, u, us, q, rfl, rfl, ht, kind, span, _, h⟩ :=
    h.cons_inv (TokenKind.isEnd_of_isProper proper)
  rw [advance_cons ht, advance_cons (kind ▸ ht)]
  refine ⟨⟨h, span⟩, [t], rfl, Nat.le_refl 1, fun _ ht => ?_⟩
  rw [List.mem_singleton.mp ht]
  exact proper

/-- Behind the separators the cursors are abreast again. -/
theorem dropSeparators {ts us : List Token} {p q : Span} (h : Token.Abreast V extra ts us)
    (hpq : V.of p = V.of q) :
    Onward V extra 0 ⟨ts, p⟩ ⟨us, q⟩ (dropSeparatorsFrom p ts) (dropSeparatorsFrom q us) := by
  induction h generalizing p q with
  | @last t u behind ht kind span count =>
    have stops : (t.kind.isSeparator && !t.kind.isEnd) = false := by rw [ht]; rfl
    simp only [dropSeparatorsFrom, ← kind, stops, Bool.false_eq_true, if_false]
    exact .refl ⟨.last ht kind span count, hpq⟩
  | @cons t u ts us ht kind span adjacent h ih =>
    simp only [dropSeparatorsFrom, ← kind]
    cases hs : t.kind.isSeparator && !t.kind.isEnd with
    | false => exact .refl ⟨.cons ht kind span adjacent h, hpq⟩
    | true =>
      obtain ⟨abreast, taken, hts, -, proper⟩ := ih span
      refine ⟨abreast, t :: taken, congrArg (t :: ·) hts, Nat.zero_le _, fun x hx => ?_⟩
      rcases List.mem_cons.mp hx with rfl | hx
      · exact TokenKind.isProper_of_isSeparator (Bool.and_eq_true_iff.mp hs).1 ht
      · exact proper x hx

/-- What is one pair of parentheses in one list is one in the other list. -/
theorem isParenthesized_eq (h : c.Abreast V extra d) (onward : Onward V extra least c d c' d') :
    c.isParenthesized c' = d.isParenthesized d' := by
  have closed := h.tokens.afterClosing? 0
  have := h.tokens.length_eq
  have := onward.abreast.tokens.length_eq
  rw [Cursor.isParenthesized, Cursor.isParenthesized, h.kind_eq]
  generalize Cursor.afterClosing? 0 c.rest = o, Cursor.afterClosing? 0 d.rest = o' at closed ⊢
  cases closed with
  | none => rfl
  | some closed =>
    congr 1
    rw [Bool.eq_iff_iff, beq_iff_eq, beq_iff_eq]
    omega

end Cursor.Onward

end PageScript
