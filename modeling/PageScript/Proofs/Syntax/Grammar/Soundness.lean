import PageScript.Proofs.Syntax.Grammar.Basic

/-!
# Proofs/Syntax/Grammar/Soundness — what is read is what the grammar says

The readers count down from the number of tokens that are left, the relations of `Grammar` do not.
As long as there are no more tokens than a reader counts, what it reads stands in the relation, read
off step by step from what each reader must have taken (`Grammar.expression_of_parse`).
-/

namespace PageScript

open Parse
open Token (next nextAdjacent)

theorem Cursor.isParenthesized_eq (c d : Cursor) :
    c.isParenthesized d = Grammar.isParenthesized c.rest d.rest := by
  obtain ⟨ts, p⟩ := c
  rw [Grammar.isParenthesized, isParenthesized, isParenthesized, kind_mk_eq, kind_mk_eq]

namespace Parse

variable {ts : List Token} {p s : Span} {d : Cursor} {name : Name} {expression : Parse Expr}
  {arg : Arg}

/-! ## A plus in front of an operand -/

section

variable {t u : Token} {operand : Nat → Parse Expr} {bound level : Nat}

/-- A plus that no number follows is left out. -/
theorem firstOperand_plus (ht : t.kind = .symbol .plus) (unsigned : ∀ x, next ts ≠ .number x) :
    firstOperand operand bound level ⟨t :: ts, p⟩ = operand (signedLevel level) ⟨ts, t.span⟩ := by
  obtain ⟨kind, span, spaced, adjacent⟩ := t
  subst ht
  cases ts with
  | nil => rfl
  | cons u ts =>
    obtain ⟨kind, uspan, spaced, adjacent⟩ := u
    cases kind with
    | number x => exact absurd rfl (unsigned x)
    | _ => rfl

/-- A plus before a number belongs to it. -/
theorem firstOperand_positive {x : Float} (ht : t.kind = .symbol .plus) (hu : u.kind = .number x) :
    firstOperand operand bound level ⟨t :: u :: ts, p⟩ =
      primary (operand 0) bound ⟨t :: u :: ts, p⟩ := by
  obtain ⟨kind, span, spaced, adjacent⟩ := t
  obtain ⟨kind, span, spaced, adjacent⟩ := u
  subst ht hu
  rfl

theorem primary_positive {x : Float} (ht : t.kind = .symbol .plus) (hu : u.kind = .number x) :
    primary expression bound ⟨t :: u :: ts, p⟩ =
      .ok (.literal (t.span.merge u.span) (.number x), ⟨ts, u.span⟩) := by
  obtain ⟨kind, span, spaced, adjacent⟩ := t
  obtain ⟨kind, span, spaced, adjacent⟩ := u
  subst ht hu
  rfl

end

/-! ## What a reader that succeeds has taken -/

theorem exists_of_memberName (h : memberName ⟨ts, p⟩ = .ok (name, d)) : ∃ t us, ts = t :: us ∧
    t.kind.memberName? = some name ∧ d = ⟨us, t.span⟩ := by
  cases ts with
  | nil => nomatch h
  | cons t ts =>
    obtain ⟨kind, span, spaced, adjacent⟩ := t
    cases kind with
    | ident | keyword =>
      cases h
      exact ⟨_, _, rfl, rfl, rfl⟩
    | _ => nomatch h

theorem exists_of_identifier (h : identifier ⟨ts, p⟩ = .ok (name, d)) : ∃ t us, ts = t :: us ∧
    t.kind = .ident name ∧ d = ⟨us, t.span⟩ := by
  cases ts with
  | nil => nomatch h
  | cons t ts =>
    obtain ⟨kind, span, spaced, adjacent⟩ := t
    cases kind with
    | ident =>
      cases h
      exact ⟨_, _, rfl, rfl, rfl⟩
    | _ => nomatch h

theorem exists_of_requireSymbol {c : Cursor} {sign : Symbol} (h : requireSymbol sign c = .ok (s, d)) :
    ∃ t us, c.rest = t :: us ∧ t.kind = .symbol sign ∧ d = ⟨us, t.span⟩ := by
  obtain ⟨ts, p⟩ := c
  have found : next ts = .symbol sign := by
    by_contra other
    have missing : (Cursor.mk ts p).kind.isSymbol sign = false :=
      Bool.eq_false_iff.mpr fun h => other (Cursor.kind_mk_eq ts p ▸ TokenKind.isSymbol_iff.mp h)
    rw [requireSymbol, require, bind_of_ok (kind_run _), missing] at h
    cases h
  cases ts with
  | nil => cases found
  | cons t ts =>
    rw [requireSymbol_cons found] at h
    cases h
    exact ⟨t, ts, rfl, found, rfl⟩

/-- A symbol is taken if it is there. -/
theorem exists_of_acceptSymbol {α : Type} {c : Cursor} {sign : Symbol} {f : Bool → Parse α} {a : α}
    (h : (acceptSymbol sign >>= f) c = .ok (a, d)) :
    (∃ t us, c.rest = t :: us ∧ t.kind = .symbol sign ∧ f true ⟨us, t.span⟩ = .ok (a, d)) ∨
      next c.rest ≠ .symbol sign ∧ f false c = .ok (a, d) := by
  obtain ⟨ts, p⟩ := c
  by_cases found : next ts = .symbol sign
  · cases ts with
    | nil => cases found
    | cons t ts =>
      rw [bind_of_ok (acceptSymbol_cons found)] at h
      exact .inl ⟨t, ts, rfl, found, h⟩
  · rw [bind_of_ok (acceptSymbol_of_ne (Cursor.kind_mk_eq ts p ▸ found))] at h
    exact .inr ⟨found, h⟩

theorem exists_of_number (h : ∃ x, next ts = .number x) :
    ∃ x u us, ts = u :: us ∧ u.kind = .number x := by
  obtain ⟨x, h⟩ := h
  cases ts with
  | nil => cases h
  | cons u us => exact ⟨x, u, us, rfl, h⟩

theorem exists_of_argument {c : Cursor} (h : argument expression c = .ok (arg, d)) :
    ∃ e, expression c = .ok (e, d) ∧ arg = .mk e (Grammar.isParenthesized c.rest d.rest) := by
  change (expression >>= fun value => get >>= fun last =>
    pure (Arg.mk value (c.isParenthesized last))) c = _ at h
  obtain ⟨e, d', he, h⟩ := exists_of_bind h
  cases h
  exact ⟨e, he, congrArg (Arg.mk e) (c.isParenthesized_eq d)⟩

end Parse

namespace Grammar

variable {expression : Parse Expr} {operand : Nat → Parse Expr} {n bound level : Nat} {d : Cursor}
  {e : Expr} {ts : List Token} {p : Span}

/-! ## What is read is what the grammar says -/

/-- As long as no more tokens are left than a number, what the reader reads is an expression of the
level. -/
def Sound (n level : Nat) (expression : Parse Expr) : Prop :=
  ∀ ⦃ts p e d⦄, ts.length ≤ n → expression ⟨ts, p⟩ = .ok (e, d) →
    Expression level ts e.unplaced d.rest

theorem path_of_createdPath : ∀ {bound : Nat} {ts : List Token} {p : Span} {d : Cursor}
    {names : List Name}, ts.length ≤ bound → createdPath bound ⟨ts, p⟩ = .ok (names, d) →
      Path ts names d.rest
  | 0, ts, _, _, _, few, h => by
    obtain rfl : ts = [] := List.eq_nil_of_length_eq_zero (Nat.le_zero.mp few)
    cases h
    exact .stop nofun
  | bound + 1, ts, p, d, names, few, h => by
    change (acceptSymbol .dot >>= fun more => if more then _ else _) _ = _ at h
    obtain ⟨t, us, rfl, dot, h⟩ | ⟨other, h⟩ := exists_of_acceptSymbol h
    · obtain ⟨name, f, hname, h⟩ := exists_of_bind h
      obtain ⟨u, us, rfl, hu, rfl⟩ := exists_of_memberName hname
      obtain ⟨further, f, hfurther, h'⟩ := exists_of_bind h
      cases h'
      simp only [List.length_cons] at few
      exact .cons dot hu (path_of_createdPath (by omega) hfurther)
    · cases h
      exact .stop other

theorem head_of_chainHead (h : chainHead ⟨ts, p⟩ = .ok (e, d)) : Head ts e.unplaced d.rest := by
  cases ts with
  | nil => nomatch h
  | cons t ts =>
    obtain ⟨kind, span, spaced, adjacent⟩ := t
    cases kind with
    | ident =>
      cases h
      exact .var rfl
    | symbol sign =>
      cases sign with
      | dot =>
        change (memberName >>= fun name => previous >>= fun s =>
          pure (Expr.withMember (span.merge s) name)) ⟨ts, span⟩ = _ at h
        obtain ⟨name, f, hname, made⟩ := exists_of_bind h
        obtain ⟨u, us, rfl, hu, rfl⟩ := exists_of_memberName hname
        cases made
        exact .withMember rfl hu
      | _ => nomatch h
    | _ => nomatch h

theorem arguments_of_commaSeparated (sound : Sound n 0 expression) :
    ∀ {bound : Nat} {ts : List Token} {p : Span} {d : Cursor} {args : List Arg}, ts.length ≤ n →
      ts.length ≤ bound → commaSeparated (argument expression) bound ⟨ts, p⟩ = .ok (args, d) →
        Arguments ts (Expr.unplacedArgs args) d.rest
  | 0, _, _, _, _, few, zero, h => by
    obtain ⟨arg, f, harg, -⟩ := exists_of_bind h
    obtain ⟨e, he, -⟩ := exists_of_argument harg
    have := (sound few he).takes.length_le
    omega
  | bound + 1, ts, p, d, args, few, fits, h => by
    change (argument expression >>= fun first => acceptSymbol .comma >>= fun more => if more then
      commaSeparated (argument expression) bound >>= fun further => pure (first :: further) else
        pure [first]) _ = _ at h
    obtain ⟨arg, ⟨us, q⟩, harg, h⟩ := exists_of_bind h
    obtain ⟨e, he, rfl⟩ := exists_of_argument harg
    have read := sound few he
    have less := read.takes.length_le
    obtain ⟨t, vs, rfl, comma, h⟩ | ⟨last, h⟩ := exists_of_acceptSymbol h
    · obtain ⟨further, g, hfurther, made⟩ := exists_of_bind h
      cases made
      simp only [List.length_cons] at less
      exact .cons read comma (arguments_of_commaSeparated sound (by omega) (by omega) hfurther)
    · cases h
      exact .one read last

theorem arguments_of_commaList {args : List Arg} (sound : Sound n 0 expression) (few : ts.length ≤ n)
    (h : commaList (argument expression) ⟨ts, p⟩ = .ok (args, d)) :
    Arguments ts (Expr.unplacedArgs args) d.rest :=
  arguments_of_commaSeparated sound few (Nat.le_refl _) h

theorem links_of_links (sound : Sound n 0 expression) :
    ∀ {bound : Nat} (chain : Expr) {opening : Option Cursor} {ts : List Token} {p : Span} {d : Cursor}
      {r : Expr × Option Cursor}, ts.length ≤ n + 1 → ts.length ≤ bound →
        links expression bound chain opening ⟨ts, p⟩ = .ok (r, d) →
          Links chain.unplaced ts r.1.unplaced d.rest
  | 0, _, _, ts, _, _, _, _, zero, h => by
    obtain rfl : ts = [] := List.eq_nil_of_length_eq_zero (Nat.le_zero.mp zero)
    cases h
    exact .stop nofun nofun
  | bound + 1, _, _, [], _, _, _, _, _, h => by
    cases h
    exact .stop nofun nofun
  | bound + 1, chain, opening, ⟨kind, span, spaced, adjacent⟩ :: ts, p, d, r, few, fits, h => by
    simp only [List.length_cons] at few fits
    cases kind with
    | symbol sign =>
      cases sign with
      | dot =>
        cases adjacent with
        | false =>
          cases h
          exact .stop nofun fun _ => rfl
        | true =>
          change (memberName >>= fun name => previous >>= fun s =>
            links expression bound (.member (chain.span.merge s) chain name) none) ⟨ts, span⟩ = _ at h
          obtain ⟨name, f, hname, h'⟩ := exists_of_bind h
          obtain ⟨u, us, rfl, hu, rfl⟩ := exists_of_memberName hname
          simp only [List.length_cons] at few fits
          exact .link (.member rfl rfl hu) (links_of_links sound
            (.member (chain.span.merge u.span) chain name) (by omega) (by omega) h')
      | lparen =>
        -- Behind the arguments, the parenthesis is closed and more links may follow.
        have behind (args : List Arg) {c d : Cursor} {r : Expr × Option Cursor}
            {opening : Option Cursor} (less : c.rest.length ≤ ts.length)
            (h : (requireSymbol .rparen >>= fun _ => previous >>= fun s =>
              links expression bound (.call (chain.span.merge s) chain args) opening) c = .ok (r, d)) :
            ∃ u us, c.rest = u :: us ∧ u.kind = .symbol .rparen ∧
              Links (.call .origin chain.unplaced (Expr.unplacedArgs args)) us r.1.unplaced d.rest := by
          obtain ⟨_, g, hr, h⟩ := exists_of_bind h
          obtain ⟨u, us, rest, hu, rfl⟩ := exists_of_requireSymbol hr
          rw [rest, List.length_cons] at less
          exact ⟨u, us, rest, hu, links_of_links sound
            (.call (chain.span.merge u.span) chain args) (by omega) (by omega) h⟩
        change (if (Cursor.mk ts span).kind.isSymbol .rparen && (Cursor.mk ts span).isAdjacent then _
          else commaList (argument expression) >>= fun args => requireSymbol .rparen >>= fun _ =>
            previous >>= fun s => links expression bound (.call (chain.span.merge s) chain args)
              (some _)) _ = _ at h
        split at h
        · rename_i empty
          obtain ⟨u, us, rfl, hu, further⟩ := behind [] (Nat.le_refl _) h
          exact .link (.apply rfl hu (Bool.and_eq_true_iff.mp empty).2) further
        · obtain ⟨args, f, hargs, h⟩ := exists_of_bind h
          have arguments := arguments_of_commaList sound (by omega) hargs
          obtain ⟨u, us, rest, hu, further⟩ := behind args (Nat.le_of_succ_le arguments.takes.length_le) h
          exact .link (.call rfl (rest ▸ arguments) hu) further
      | _ =>
        cases h
        exact .stop nofun nofun
    | _ =>
      cases h
      exact .stop nofun nofun

theorem operand_of_primary (sound : Sound n 0 expression) (few : ts.length ≤ n + 1)
    (fits : ts.length ≤ bound + 1) (h : primary expression bound ⟨ts, p⟩ = .ok (e, d)) :
    Operand level ts e.unplaced d.rest := by
  -- Whatever an operand starts with, a chain may follow.
  have chain (head : Expr) {us : List Token} {q : Span} (less : us.length < ts.length)
      (h : (links expression bound head none >>= fun r => pure r.1) ⟨us, q⟩ = .ok (e, d)) :
      Links head.unplaced us e.unplaced d.rest := by
    obtain ⟨r, f, hlinks, made⟩ := exists_of_bind h
    cases made
    exact links_of_links sound head (by omega) (by omega) hlinks
  have head (h : (chainHead >>= fun head => links expression bound head none >>= fun r => pure r.1)
      ⟨ts, p⟩ = .ok (e, d)) : Operand level ts e.unplaced d.rest := by
    obtain ⟨head, ⟨us, q⟩, hhead, h⟩ := exists_of_bind h
    have first := head_of_chainHead hhead
    exact .chain first (chain head first.takes.length_le h)
  cases ts with
  | nil => nomatch h
  | cons t ts =>
    obtain ⟨kind, span, spaced, adjacent⟩ := t
    simp only [List.length_cons] at few fits
    cases kind with
    | number | string =>
      cases h
      exact .literal rfl
    | ident => exact head h
    | keyword word =>
      cases word with
      | trueWord | falseWord | emptyWord | nullWord | nothingWord =>
        cases h
        exact .literal rfl
      | newWord =>
        change (identifier >>= fun first => createdPath bound >>= fun further => previous >>= fun s =>
          pure (Expr.create (span.merge s) (first :: further))) ⟨ts, span⟩ = _ at h
        obtain ⟨first, f, hfirst, h⟩ := exists_of_bind h
        obtain ⟨u, us, rfl, hu, rfl⟩ := exists_of_identifier hfirst
        obtain ⟨further, f, hfurther, made⟩ := exists_of_bind h
        cases made
        simp only [List.length_cons] at fits
        exact .create rfl hu (path_of_createdPath (by omega) hfurther)
      | _ => nomatch h
    | symbol sign =>
      cases sign with
      | dot => exact head h
      | minus | plus =>
        cases ts with
        | nil => nomatch h
        | cons u ts =>
          obtain ⟨kind, uspan, spaced, adjacent⟩ := u
          cases kind with
          | number =>
            cases h
            first | exact .negative rfl rfl | exact .positive rfl rfl
          | _ => nomatch h
      | lparen =>
        change (expression >>= fun inner => requireSymbol .rparen >>= fun _ => previous >>= fun s =>
          links expression bound (inner.withSpan (span.merge s)) none >>= fun r => pure r.1)
            ⟨ts, span⟩ = _ at h
        obtain ⟨inner, f, hinner, h⟩ := exists_of_bind h
        obtain ⟨_, g, hr, h⟩ := exists_of_bind h
        obtain ⟨u, us, rest, hu, rfl⟩ := exists_of_requireSymbol hr
        have read := sound (by omega) hinner
        have less := read.takes.length_le
        rw [rest] at read less
        simp only [List.length_cons] at less
        have links := chain (inner.withSpan (span.merge u.span))
          (by simp only [List.length_cons]; omega) h
        rw [Expr.unplaced_withSpan] at links
        exact .parens rfl read hu links
      | _ => nomatch h
    | _ => nomatch h

theorem operand_of_firstOperand (sound : ∀ level, Sound n level (operand level))
    (few : ts.length ≤ n + 1) (fits : ts.length ≤ bound + 1)
    (h : firstOperand operand bound level ⟨ts, p⟩ = .ok (e, d)) :
    Operand level ts e.unplaced d.rest := by
  have bare (h : primary (operand 0) bound ⟨ts, p⟩ = .ok (e, d)) : Operand level ts e.unplaced d.rest :=
    operand_of_primary (sound 0) few fits h
  cases ts with
  | nil => exact bare h
  | cons t ts =>
    obtain ⟨kind, span, spaced, adjacent⟩ := t
    simp only [List.length_cons] at few
    cases kind with
    | keyword word =>
      cases word with
      | notWord =>
        by_cases hlevel : level ≤ UnaryOp.not.strength
        · rw [firstOperand_not rfl hlevel] at h
          obtain ⟨inner, f, hinner, made⟩ := exists_of_bind h
          cases made
          exact .not rfl hlevel (sound _ (by omega) hinner)
        · change (if level ≤ UnaryOp.not.strength then _ else _ : Parse Expr) _ = _ at h
          rw [if_neg hlevel] at h
          nomatch h
      | _ => exact bare h
    | symbol sign =>
      cases sign with
      | minus =>
        by_cases number : ∃ x, next ts = .number x
        · obtain ⟨x, u, us, rfl, hu⟩ := exists_of_number number
          rw [firstOperand_negative rfl hu] at h
          exact bare h
        · have unsigned := not_exists.mp number
          rw [firstOperand_neg rfl fun x => Cursor.kind_mk_eq ts span ▸ unsigned x] at h
          obtain ⟨inner, f, hinner, made⟩ := exists_of_bind h
          cases made
          exact .neg rfl unsigned (sound _ (by omega) hinner)
      | plus =>
        by_cases number : ∃ x, next ts = .number x
        · obtain ⟨x, u, us, rfl, hu⟩ := exists_of_number number
          rw [firstOperand_positive rfl hu] at h
          exact bare h
        · have unsigned := not_exists.mp number
          rw [firstOperand_plus rfl unsigned] at h
          exact .plus rfl unsigned (sound _ (by omega) h)
      | _ => exact bare h
    | _ => exact bare h

theorem rightOperand_eq (op : BinaryOp) :
    rightOperand operand op ⟨ts, p⟩ = operand (rightLevel op (next ts)) ⟨ts, p⟩ := by
  rw [rightLevel, ← Cursor.kind_mk_eq ts p]
  unfold rightOperand
  cases op.isComparison with
  | false => rfl
  | true =>
    change (if (Cursor.mk ts p).kind.isKeyword .notWord then _ else _ : Parse Expr) _ = _
    cases (Cursor.mk ts p).kind.isKeyword .notWord <;> rfl

theorem further_of_extend (sound : ∀ level, Sound n level (operand level)) :
    ∀ {bound : Nat} (left : Expr) {ts : List Token} {p : Span} {d : Cursor}, ts.length ≤ n + 1 →
      ts.length ≤ bound → extend operand level bound left ⟨ts, p⟩ = .ok (e, d) →
        Further level left.unplaced ts e.unplaced d.rest
  | 0, _, ts, _, _, _, zero, h => by
    obtain rfl : ts = [] := List.eq_nil_of_length_eq_zero (Nat.le_zero.mp zero)
    cases h
    exact .stop fun _ hop => by cases hop
  | bound + 1, left, ts, p, d, few, fits, h => by
    by_cases loose : ∀ op, (next ts).binaryOp? = some op → op.strength < level
    · rw [extend_stop fun op hop => loose op (Cursor.kind_mk_eq ts p ▸ hop)] at h
      cases h
      exact .stop loose
    · obtain ⟨op, hop, hlevel⟩ : ∃ op, (next ts).binaryOp? = some op ∧ level ≤ op.strength := by
        simpa using loose
      cases ts with
      | nil => cases hop
      | cons t ts =>
        simp only [List.length_cons] at few fits
        rw [extend, bind_of_ok (kind_run _), Cursor.kind_mk_eq, hop] at h
        dsimp only at h
        rw [if_pos hlevel] at h
        have taken : advance ⟨t :: ts, p⟩ = .ok (t.span, ⟨ts, t.span⟩) := by
          refine advance_cons ?_
          rw [Token.next_cons] at hop
          cases hk : t.kind with
          | endOfPage => rw [hk] at hop; cases hop
          | _ => rfl
        rw [bind_of_ok taken] at h
        obtain ⟨right, ⟨us, q⟩, hright, h⟩ := exists_of_bind h
        rw [rightOperand_eq] at hright
        have read := sound _ (by omega) hright
        have less := read.takes.length_le
        exact .cons hop hlevel read (further_of_extend sound (.join op left right) (by omega) (by omega) h)

theorem expression_of_parseAt : ∀ (bound level : Nat), Sound bound level (Expr.parseAt bound level)
  | 0, _, _, _, _, _, _, h => nomatch h
  | bound + 1, level, ts, p, e, d, few, h => by
    have sound (level : Nat) : Sound bound level (Expr.parseAt bound level) :=
      expression_of_parseAt bound level
    obtain ⟨first, ⟨us, q⟩, hfirst, h⟩ := exists_of_bind h
    have operand := operand_of_firstOperand sound few few hfirst
    have less := operand.takes.length_le
    exact .intro operand (further_of_extend sound first (by omega) (by omega) h)

/-- What is read as an expression is one. -/
theorem expression_of_parse : Sound n 0 Expr.parse :=
  fun ts _ _ _ _ h => expression_of_parseAt ts.length 0 (Nat.le_refl _) h

end Grammar

end PageScript
