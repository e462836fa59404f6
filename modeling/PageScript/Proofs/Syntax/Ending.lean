import PageScript.Proofs.Syntax.Abreast.Statements
import PageScript.Proofs.Token.Tiling

/-!
# Proofs/Syntax/Ending — reading a page comes to an end inside it

A page of tokens ends with its only end-of-page token.  Reading it never looks behind that token and
never takes it, and no reader runs out of its count: more tokens behind the page raise every count and
change nothing, and no reading fails because the count has run out (`SyntaxError.Cause.exhausted`).  Every statement takes a token, no invalid token is ever taken, and an error
names a token of the page, the first invalid one at the latest (`Parse.reading_ends`).
-/

namespace PageScript

/-- The tokens end with their only end-of-page token. -/
inductive Token.IsPage : List Token → Prop
  | last {t : Token} (h : t.kind = .endOfPage) : IsPage [t]
  | cons {t : Token} {rest : List Token} (h : t.kind.isEnd = false) (page : IsPage rest) :
      IsPage (t :: rest)

/-- The cursor is at a token of the list. -/
def Cursor.IsIn (tokens : List Token) (c : Cursor) : Prop := c.rest <:+ tokens ∧ c.rest ≠ []

variable {α β : Type} {tokens behind ts us : List Token} {V : Sight} {extra least : Nat}
  {c d : Cursor} {p p' : Parse α} {R : α → α → Prop}

namespace Token

/-- What is left of a page is a page. -/
theorem IsPage.of_suffix (page : IsPage tokens) : ∀ {ts : List Token}, ts <:+ tokens → ts ≠ [] →
    IsPage ts := by
  induction page with
  | last h =>
    intro ts suffix left
    obtain rfl | suffix := List.suffix_cons_iff.mp suffix
    · exact .last h
    · exact absurd (List.suffix_nil.mp suffix) left
  | cons h page ih =>
    intro ts suffix left
    obtain rfl | suffix := List.suffix_cons_iff.mp suffix
    · exact .cons h page
    · exact ih suffix left

/-- A page is abreast with itself and anything behind it. -/
theorem IsPage.abreast (page : IsPage tokens) (behind : List Token) :
    Token.Abreast V behind.length tokens (tokens ++ behind) := by
  induction page with
  | last h => exact .last h rfl rfl rfl
  | cons h _ ih => exact .cons h rfl rfl (fun _ _ => rfl) ih

theorem Abreast.isPage (h : Token.Abreast V extra ts us) : IsPage ts := by
  induction h with
  | last ht => exact .last ht
  | cons ht _ _ _ _ ih => exact .cons ht ih

/-- Behind the token that ends a page there is none. -/
theorem IsPage.eq_nil {t : Token} {rest : List Token} (page : IsPage (t :: rest))
    (h : t.kind.isEnd = true) : rest = [] := by
  cases page with
  | last => rfl
  | cons ht => exact absurd (ht.symm.trans h) Bool.false_ne_true

/-- Kinds that alternate between the regions end with the only end of the page. -/
theorem IsPage.of_alternates {region : Region} {kinds : List TokenKind} (h : Alternates region kinds) :
    ∀ {tokens : List Token}, tokens.map Token.kind = kinds → IsPage tokens := by
  have inside {kind : TokenKind} {rest : List TokenKind} (hkind : kind.isEnd = false)
      (ih : ∀ {tokens : List Token}, tokens.map Token.kind = rest → IsPage tokens)
      {tokens : List Token} (htokens : tokens.map Token.kind = kind :: rest) : IsPage tokens := by
    obtain ⟨t, ts, rfl, rfl, hts⟩ := List.map_eq_cons_iff.mp htokens
    exact .cons hkind (ih hts)
  induction h with
  | endOfPage =>
    intro tokens htokens
    obtain ⟨t, ts, rfl, ht, hts⟩ := List.map_eq_cons_iff.mp htokens
    obtain rfl := List.map_eq_nil_iff.mp hts
    exact .last ht
  | text _ ih | includeFile _ ih | closeCode _ ih => exact inside rfl ih
  | opener h _ ih => exact inside (by cases ‹TokenKind› <;> first | rfl | nomatch h) ih
  | script h _ ih => exact inside (by cases ‹TokenKind› <;> first | rfl | nomatch h) ih

/-- The tokens of a source are a page. -/
theorem isPage_tokensFrom (p : Place) (chars : List Char) : IsPage (tokensFrom p chars) := by
  refine .of_alternates (laid_tilesFrom p chars).alternates ?_
  rw [← map_token_tilesFrom, List.map_map]
  rfl

end Token

theorem Cursor.IsIn.abreast (h : c.IsIn tokens) (page : Token.IsPage tokens) :
    c.Abreast V 0 c := by
  have self := (page.of_suffix h.1 h.2).abreast (V := V) []
  rw [List.append_nil] at self
  exact ⟨self, rfl⟩

/-- Behind proper tokens of a page there is the rest of it. -/
theorem Cursor.Takes.isIn (h : c.Takes least d) (hc : c.IsIn tokens) (left : d.rest ≠ []) :
    d.IsIn tokens := by
  obtain ⟨taken, hrest, -, -⟩ := h
  exact ⟨(List.suffix_append taken d.rest).trans (hrest ▸ hc.1), left⟩

theorem SyntaxError.ext {e e' : SyntaxError} (cause : e.cause = e'.cause) (span : e.span = e'.span) :
    e = e' := by
  cases e
  cases e'
  cases cause
  cases span
  rfl

namespace Parse

/-- A reading of a whole page is done at its end, with no invalid token before that, or has failed at
a token with no invalid token before it.  It does not give up because a bound is reached. -/
inductive Concludes (tokens : List Token) : Except SyntaxError (α × Cursor) → Prop
  | done {a : α} {last : Token} {s : Span} (atEnd : tokens.getLast? = some last)
      (valid : ∀ t ∈ tokens, t.kind ≠ .invalid) : Concludes tokens (.ok (a, ⟨[last], s⟩))
  | failed {e : SyntaxError} (i : Fin tokens.length) (place : tokens[i].span = e.span)
      (valid : ∀ j < i, tokens[j].kind ≠ .invalid) (bounded : e.cause ≠ .exhausted) :
      Concludes tokens (.error e)

/-- From every place of a page a reader with a count comes to the same with every count that is not
below the number of tokens left.  If it is done it has come on, to a place of the page; if it fails it
names a token of the page that no invalid token stands before, and the count has not run out. -/
def Proceeds (tokens : List Token) (p : Nat → Parse α) : Prop :=
  ∀ c : Cursor, c.IsIn tokens → ∀ n n', c.rest.length ≤ n → c.rest.length ≤ n' →
    p n c = p n' c ∧
      (∀ a d, p n c = .ok (a, d) → d.IsIn tokens ∧ d.rest.length < c.rest.length) ∧
        ∀ e, p n c = .error e → c.Meets e.span ∧ e.cause ≠ .exhausted

/-- Readers that are abreast both ways from one cursor are the same there. -/
theorem Abreast.run_eq (h : Abreast .sharp 0 least R p p' c c) (h' : Abreast .sharp 0 least R p' p c c)
    (hR : ∀ a b, R a b → a = b) : p c = p' c := by
  unfold Abreast at h h'
  generalize p c = x, p' c = y at h h'
  cases h with
  | failed cause span => exact congrArg Except.error (SyntaxError.ext cause span)
  | @done a b c' d' same onward =>
    cases h' with
    | done _ onward' =>
      -- Both have passed the same tokens, as many as the other one.
      obtain ⟨taken, hc, -, -⟩ := onward.taken
      obtain ⟨taken', hc', -, -⟩ := onward'.taken
      have length := onward.abreast.tokens.length_eq
      have rest := (List.append_inj' (hc.symm.trans hc') length.symm).2
      have previous : c'.previous = d'.previous := onward.abreast.previous
      obtain ⟨ts, s⟩ := c'
      obtain ⟨us, t⟩ := d'
      obtain rfl : ts = us := rest
      obtain rfl : s = t := previous
      rw [hR a b same]

theorem proceeds_of_abreast {p : Nat → Parse α} (page : Token.IsPage tokens)
    (hR : ∀ a b, R a b → a = b)
    (h : ∀ {c : Cursor}, c.Abreast .sharp 0 c → ∀ {n n' : Nat}, c.rest.length ≤ n →
      c.rest.length ≤ n' → Abreast .sharp 0 1 R (p n) (p n') c c) : Proceeds tokens p := by
  intro c hc n n' hn hn'
  have abreast := hc.abreast (V := .sharp) page
  have outcomes := h abreast hn hn'
  refine ⟨outcomes.run_eq (h abreast hn' hn) hR, fun a d done => ?_, fun e failed => ?_⟩
  · unfold Abreast at outcomes
    rw [done] at outcomes
    generalize p n' c = y at outcomes
    cases outcomes with
    | done _ onward =>
      have := onward.taken.length_le
      have left := List.ne_nil_of_length_pos onward.abreast.tokens.length_pos
      exact ⟨onward.taken.isIn hc left, by omega⟩
  · unfold Abreast at outcomes
    rw [failed] at outcomes
    generalize p n' c = y at outcomes
    cases outcomes with
    | failed _ _ stops => exact ⟨stops.meets, stops.ne_exhausted⟩

theorem concludes_of_stopsAt {e : SyntaxError} (h : (Cursor.start tokens).StopsAt e) :
    Concludes tokens (.error e : Except SyntaxError (α × Cursor)) := by
  obtain ⟨taken, t, rest, htokens, proper, place⟩ := h.meets
  have htokens : tokens = taken ++ t :: rest := htokens
  subst htokens
  refine .failed ⟨taken.length, by simp⟩ ?_ (fun j hj => ?_) h.ne_exhausted
  · rw [Fin.getElem_fin, List.getElem_append_right (Nat.le_refl _)]
    simpa using place
  · have hj : j.val < taken.length := hj
    rw [Fin.getElem_fin, List.getElem_append_left hj]
    intro invalid
    have := proper _ (List.getElem_mem hj)
    rw [invalid] at this
    nomatch this

/-- A reader, and the end of the page behind what it reads. -/
def toEnd (p : Parse α) (item : String) : Parse α := do
  let a ← p
  if (← kind).isEnd then pure a else expected item

theorem abreast_toEnd (item : String) (h : Abreast V extra least R p p' c d) :
    Abreast V extra 0 R (toEnd p item) (toEnd p' item) c d :=
  (h.loosen).bind (j := 0) fun _ _ _ _ same onward => abreast_kind onward.abreast fun _ _ =>
    .ite (fun _ => abreast_pure onward.abreast same) fun _ => abreast_expected onward.abreast item

theorem kind_of_toEnd {item : String} {a : α} (h : toEnd p item c = .ok (a, d)) :
    d.kind.isEnd = true := by
  obtain ⟨b, e, -, h⟩ := exists_of_bind h
  rw [bind_of_ok (kind_run e)] at h
  split at h
  · cases h
    assumption
  · nomatch h

/-- A page that is read up to its end has only proper tokens before that. -/
theorem concludes_toEnd {item : String} {p' : Parse α} {R : α → α → Prop}
    (h : Abreast V extra least R p p' (.start tokens) d) :
    Concludes tokens (toEnd p item (.start tokens)) := by
  have outcomes := abreast_toEnd item h
  unfold Abreast at outcomes
  generalize hx : toEnd p item (.start tokens) = x, toEnd p' item d = y at outcomes
  cases outcomes with
  | failed _ _ stops => exact concludes_of_stopsAt stops
  | @done a _ c' _ _ onward =>
    have ended := kind_of_toEnd hx
    obtain ⟨taken, htokens, -, proper⟩ := onward.taken
    have htokens : tokens = taken ++ c'.rest := htokens
    have page := onward.abreast.tokens.isPage
    obtain ⟨rest, previous⟩ := c'
    cases rest with
    | nil => nomatch page
    | cons t rest =>
      obtain rfl := page.eq_nil ended
      subst htokens
      refine .done (by simp) fun u hu invalid => ?_
      obtain hu | hu := List.mem_append.mp hu
      · have := proper u hu
        rw [invalid] at this
        nomatch this
      · rw [List.mem_singleton.mp hu] at invalid
        have ended : t.kind.isEnd = true := ended
        rw [invalid] at ended
        nomatch ended

end Parse

/-! ## Programs and expressions -/

/-- The reader of a source that holds one expression and nothing else. -/
def Expr.parseWhole : Parse Expr := Parse.toEnd Expr.parse "end of expression"

theorem Expr.ofTokens?_eq (tokens : List Token) :
    Expr.ofTokens? tokens = Prod.fst <$> Expr.parseWhole (.start tokens) := by
  change (Expr.parseWhole (.start tokens) >>= fun x => pure x.1) = _
  cases Expr.parseWhole (.start tokens) <;> rfl

theorem programOfTokens?_eq (tokens : List Token) :
    programOfTokens? tokens = Prod.fst <$> Parse.program (.start tokens) := by
  change (Parse.program (.start tokens) >>= fun x => pure x.1) = _
  cases Parse.program (.start tokens) <;> rfl

theorem Token.IsPage.isIn_start (page : Token.IsPage tokens) : (Cursor.start tokens).IsIn tokens :=
  ⟨List.suffix_refl tokens, by cases page <;> exact List.cons_ne_nil _ _⟩

namespace Parse

/-- The results of readers that are abreast are the same. -/
theorem Abreast.result_eq (h : Abreast .sharp extra least R p p' c d) (hR : ∀ a b, R a b → a = b) :
    Prod.fst <$> p c = Prod.fst <$> p' d := by
  unfold Abreast at h
  generalize p c = x, p' d = y at h
  cases h with
  | failed cause span => exact congrArg Except.error (SyntaxError.ext cause span)
  | @done a b _ _ same => exact congrArg Except.ok (hR a b same)

/-- **Reading ends inside the page.**  Statements and expressions are read with any count that is large
enough, which then never runs out, and take tokens of the page; a whole program or expression is read up
to the last token, over no invalid one, or reading fails at a token that no invalid one stands before;
and what is behind the page does not matter, although it raises the count of every loop. -/
theorem reading_ends (page : Token.IsPage tokens) :
    (∀ around, Proceeds tokens fun n => Stmt.parseAt n around) ∧
      (∀ level, Proceeds tokens fun n => Expr.parseAt n level) ∧
        Concludes tokens (program (.start tokens)) ∧
          Concludes tokens (Expr.parseWhole (.start tokens)) ∧
            ∀ behind, programOfTokens? (tokens ++ behind) = programOfTokens? tokens ∧
              Expr.ofTokens? (tokens ++ behind) = Expr.ofTokens? tokens := by
  have sameStmt (a b : Stmt) (h : a.SeenAs .sharp b) : a = b := by
    rwa [Stmt.SeenAs, Stmt.seen_sharp, Stmt.seen_sharp] at h
  have sameAll (a b : List Stmt) (h : Stmt.AllSeenAs .sharp a b) : a = b := by
    rwa [Stmt.AllSeenAs, Stmt.seenAll_sharp, Stmt.seenAll_sharp] at h
  have sameExpr (a b : Expr) (h : a.SeenAs .sharp b) : a = b := by
    rwa [Expr.SeenAs, Expr.seen_sharp, Expr.seen_sharp] at h
  have start (behind : List Token) :
      (Cursor.start tokens).Abreast .sharp behind.length (.start (tokens ++ behind)) :=
    ⟨page.abreast behind, rfl⟩
  refine ⟨fun around => proceeds_of_abreast page sameStmt fun h => Stmt.abreast_parseAt around h,
    fun level => proceeds_of_abreast page sameExpr fun h => Expr.abreast_parseAt level h,
    concludes_toEnd (abreast_block _ (fun h hn => Stmt.abreast_parseAt _ h hn hn) (start [])
      (Nat.le_refl _)),
    concludes_toEnd (Expr.abreast_parse (start [])), fun behind => ⟨?_, ?_⟩⟩
  · rw [programOfTokens?_eq, programOfTokens?_eq]
    exact ((abreast_program (start behind)).result_eq sameAll).symm
  · rw [Expr.ofTokens?_eq, Expr.ofTokens?_eq]
    exact ((abreast_toEnd _ (Expr.abreast_parse (start behind))).result_eq sameExpr).symm

/-- In a page with an invalid token reading fails at that token or before. -/
theorem concludes_invalid :
    Token.IsPage [⟨.ident (.ofString "a"), ⟨0, 1⟩, false, false⟩, ⟨.invalid, ⟨2, 3⟩, false, false⟩,
        ⟨.endOfPage, ⟨3, 3⟩, true, false⟩] ∧
      Concludes [⟨.ident (.ofString "a"), ⟨0, 1⟩, false, false⟩, ⟨.invalid, ⟨2, 3⟩, false, false⟩,
          ⟨.endOfPage, ⟨3, 3⟩, true, false⟩]
        (program (.start [⟨.ident (.ofString "a"), ⟨0, 1⟩, false, false⟩,
          ⟨.invalid, ⟨2, 3⟩, false, false⟩, ⟨.endOfPage, ⟨3, 3⟩, true, false⟩])) :=
  have page : Token.IsPage _ := .cons rfl (.cons rfl (.last rfl))
  ⟨page, (reading_ends page).2.2.1⟩

end Parse

end PageScript
