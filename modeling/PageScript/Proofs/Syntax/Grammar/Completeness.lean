import PageScript.Proofs.Syntax.Grammar.Soundness

/-!
# Proofs/Syntax/Grammar/Completeness — what the grammar says is read

The relations of `Grammar` say how far an expression goes, and the readers go exactly so far if they
may take as many tokens as there are (`Grammar.Expression.parse`).  Links are read one by one, so
`Grammar.Linked.run` is about the reader of links in the middle of its work.
-/

namespace PageScript.Grammar

open Parse
open Token (next nextAdjacent)

variable {expression : Parse Expr} {operand : Nat → Parse Expr} {n bound level : Nat}
  {e chain : Expr} {ts us rest : List Token} {names : List Name} {args : List Arg}

/-- In front of some tokens a reader takes those that are not left, and reads an expression up to
places. -/
def ReadAs (reader : Parse Expr) (ts : List Token) (e : Expr) (rest : List Token) : Prop :=
  ∀ p, ∃ e' q, e'.unplaced = e ∧ reader ⟨ts, p⟩ = .ok (e', ⟨rest, q⟩)

/-- As long as no more tokens are left than a number, the reader reads the expressions of the level. -/
def Complete (n level : Nat) (expression : Parse Expr) : Prop :=
  ∀ ⦃ts e rest⦄, ts.length ≤ n → Expression level ts e rest → ReadAs expression ts e rest

/-! ## Chains -/

theorem Path.read : ∀ {bound : Nat} {ts : List Token} {names : List Name} {rest : List Token},
    Path ts names rest → ts.length ≤ bound →
      ∀ p, ∃ q, createdPath bound ⟨ts, p⟩ = .ok (names, ⟨rest, q⟩)
  | _, ts, _, _, .stop other, _, p => ⟨p, createdPath_stop (Cursor.kind_mk_eq ts p ▸ other)⟩
  | 0, _, _, _, .cons _ _ _, few, _ => absurd few (Nat.not_succ_le_zero _)
  | bound + 1, _ :: u :: ts, _, _, .cons ht hu further, few, _ => by
    have fits : ts.length ≤ bound := Nat.le_of_succ_le (Nat.le_of_succ_le_succ few)
    obtain ⟨q, run⟩ := further.read fits u.span
    exact ⟨q, createdPath_cons ht hu run⟩

theorem Head.read (h : Head ts e rest) : ReadAs chainHead ts e rest := by
  intro p
  cases h with
  | @var t _ name ht =>
    obtain ⟨kind, span, spaced, adjacent⟩ := t
    subst ht
    exact ⟨.var span name, span, rfl, rfl⟩
  | @withMember t u _ name ht hu =>
    obtain ⟨kind, span, spaced, adjacent⟩ := t
    subst ht
    refine ⟨.withMember (span.merge u.span) name, u.span, rfl, ?_⟩
    change (memberName >>= fun name => previous >>= fun s =>
      pure (Expr.withMember (span.merge s) name)) ⟨u :: rest, span⟩ = _
    rw [bind_of_ok (memberName_cons hu)]
    rfl

theorem argument_run {p q : Span} (h : expression ⟨ts, p⟩ = .ok (e, ⟨rest, q⟩)) :
    argument expression ⟨ts, p⟩ = .ok (.mk e (isParenthesized ts rest), ⟨rest, q⟩) := by
  rw [argument_of_ok h, Cursor.isParenthesized_eq]

theorem Arguments.read (complete : Complete n 0 expression) :
    ∀ {bound : Nat} {ts : List Token} {args : List Arg} {rest : List Token}, Arguments ts args rest →
      ts.length ≤ n → ts.length ≤ bound → ∀ p, ∃ args' q, Expr.unplacedArgs args' = args ∧
        commaSeparated (argument expression) bound ⟨ts, p⟩ = .ok (args', ⟨rest, q⟩)
  | _, ts, _, rest, .one h last, few, _, p => by
    obtain ⟨e, q, rfl, run⟩ := complete few h p
    exact ⟨[.mk e (isParenthesized ts rest)], q, rfl,
      commaSeparated_one (argument_run run) (Cursor.kind_mk_eq rest q ▸ last)⟩
  | 0, _, _, _, .cons h _ _, _, zero, _ => absurd (Nat.le_trans h.takes.length_le zero) (by simp)
  | bound + 1, ts, _, _, @Arguments.cons _ _ t us _ _ h ht further, few, fits, p => by
    have less := h.takes.length_le
    simp only [List.length_cons] at less
    have fits' : us.length ≤ bound := by omega
    obtain ⟨e, q, rfl, run⟩ := complete few h p
    obtain ⟨args, q', rfl, rest⟩ := further.read complete (by omega) fits' t.span
    exact ⟨.mk e (isParenthesized ts (t :: us)) :: args, q', rfl,
      commaSeparated_cons (argument_run run) ht rest⟩

/-- Where the parentheses of the last link of a chain start, if that is arguments. -/
def opened : Expr → Cursor → Option Cursor
  | .call .., c => some c
  | _, _ => none

/-- A link is read, wherever the reader of links came from. -/
theorem Link.run {before : Expr} (complete : Complete n 0 expression)
    (h : Link before ts e us) (few : ts.length ≤ n + 1) (hchain : chain.unplaced = before) (p : Span) :
    ∃ chain' q, chain'.unplaced = e ∧ ∀ bound opening,
      links expression (bound + 1) chain opening ⟨ts, p⟩ =
        links expression bound chain' (opened chain' ⟨ts, p⟩) ⟨us, q⟩ := by
  cases h with
  | @member _ t u _ name ht touching hu =>
    exact ⟨.member (chain.span.merge u.span) chain name, u.span, hchain ▸ rfl,
      fun _ _ => links_member ht touching hu⟩
  | @apply _ t u _ ht hu touching =>
    exact ⟨.call (chain.span.merge u.span) chain [], u.span, hchain ▸ rfl,
      fun _ _ => links_apply ht hu touching⟩
  | @call _ t ts args r _ ht hargs hr =>
    simp only [List.length_cons] at few
    obtain ⟨args, q, rfl, run⟩ := hargs.read complete (by omega) (Nat.le_refl _) t.span
    have other : (Cursor.mk ts t.span).kind ≠ .symbol .rparen :=
      Cursor.kind_mk_eq ts t.span ▸ TokenKind.ne_of_startsOperand hargs.starts rfl
    exact ⟨.call (chain.span.merge r.span) chain args, r.span, hchain ▸ rfl,
      fun _ _ => links_call ht other run hr⟩

/-- A chain ends before anything but parentheses and points that touch it. -/
theorem links_end {opening : Option Cursor} {p : Span} (paren : next ts ≠ .symbol .lparen)
    (dot : next ts = .symbol .dot → nextAdjacent ts = false) :
    links expression bound chain opening ⟨ts, p⟩ = .ok ((chain, opening), ⟨ts, p⟩) := by
  by_cases point : next ts = .symbol .dot
  · cases bound with
    | zero => rfl
    | succ bound =>
      cases ts with
      | nil => cases point
      | cons t ts =>
        obtain ⟨kind, span, spaced, adjacent⟩ := t
        obtain rfl : kind = .symbol .dot := point
        obtain rfl : adjacent = false := dot rfl
        rfl
  · exact links_stop (Cursor.kind_mk_eq ts p ▸ paren) (Cursor.kind_mk_eq ts p ▸ point)

/-- Behind links the reader of links stands as if it had the chain in hand. -/
theorem Linked.run {before : Expr} (complete : Complete n 0 expression) (h : Linked before ts e us) :
    ∀ {chain : Expr} {bound : Nat} {opening : Option Cursor}, ts.length ≤ n + 1 → ts.length ≤ bound →
      chain.unplaced = before → ∀ p, ∃ chain' bound' opening' q, chain'.unplaced = e ∧
        us.length ≤ bound' ∧ links expression bound chain opening ⟨ts, p⟩ =
          links expression bound' chain' opening' ⟨us, q⟩ := by
  induction h with
  | nil =>
    intro chain bound opening _ fits hchain p
    exact ⟨chain, bound, opening, p, hchain, fits, rfl⟩
  | cons h further ih =>
    intro chain bound opening few fits hchain p
    have less := h.takes.length_le
    obtain ⟨bound, rfl⟩ : ∃ b, bound = b + 1 := ⟨bound - 1, by omega⟩
    obtain ⟨chain', q, hchain', run⟩ := h.run complete few hchain p
    have fits' : _ ≤ bound := Nat.le_of_lt_succ (Nat.lt_of_lt_of_le less fits)
    obtain ⟨chain'', bound', opening', q', hchain'', fits'', run'⟩ :=
      ih (Nat.le_of_succ_le (Nat.le_trans less few)) fits' hchain' q
    exact ⟨chain'', bound', opening', q', hchain'', fits'', (run bound opening).trans run'⟩

theorem Links.read {before : Expr} {opening : Option Cursor} (complete : Complete n 0 expression)
    (h : Links before ts e rest) (few : ts.length ≤ n + 1) (fits : ts.length ≤ bound)
    (hchain : chain.unplaced = before) (p : Span) : ∃ chain' opening' q, chain'.unplaced = e ∧
      links expression bound chain opening ⟨ts, p⟩ = .ok ((chain', opening'), ⟨rest, q⟩) := by
  obtain ⟨linked, paren, dot⟩ := h.linked
  obtain ⟨chain', bound', opening', q, hchain', -, run⟩ := linked.run complete few fits hchain p
  exact ⟨chain', opening', q, hchain', run.trans (links_end paren dot)⟩

/-! ## Operands and operators -/

/-- Nothing but a word or a sign in front makes an operand more than what stands there. -/
theorem firstOperand_of_kind {kind : TokenKind} (ht : t.kind = kind)
    (other : kind ≠ .keyword .notWord ∧ kind ≠ .symbol .minus ∧ kind ≠ .symbol .plus) :
    firstOperand operand bound level ⟨t :: ts, p⟩ = primary (operand 0) bound ⟨t :: ts, p⟩ := by
  subst ht
  exact firstOperand_primary other.1 other.2.1 other.2.2

theorem Operand.read (complete : ∀ level, Complete n level (operand level)) (few : ts.length ≤ n + 1)
    (fits : ts.length ≤ bound + 1) (h : Operand level ts e rest) :
    ReadAs (firstOperand operand bound level) ts e rest := by
  -- The links behind what an operand starts with.
  have behind {head : Expr} {us : List Token} (less : us.length < ts.length)
      (links : Links head us e rest) {chain : Expr} (hchain : chain.unplaced = head) :
      ReadAs (Parse.links (operand 0) bound chain none >>= fun r => pure r.1) us e rest := by
    intro p
    have fits' : us.length ≤ bound := by omega
    obtain ⟨chain', opening, q, hchain', run⟩ :=
      links.read (complete 0) (by omega) fits' hchain p
    exact ⟨chain', q, hchain', bind_of_ok run⟩
  intro p
  cases h with
  | @not _ t _ e _ ht hlevel h =>
    simp only [List.length_cons] at few
    obtain ⟨e, q, rfl, run⟩ := complete _ (by omega) h t.span
    rw [firstOperand_not ht hlevel]
    exact ⟨.unary (t.span.merge e.span) .not e, q, rfl, bind_of_ok run⟩
  | @neg _ t ts e _ ht unsigned h =>
    simp only [List.length_cons] at few
    obtain ⟨e, q, rfl, run⟩ := complete _ (by omega) h t.span
    rw [firstOperand_neg ht fun x => Cursor.kind_mk_eq ts t.span ▸ unsigned x]
    exact ⟨.unary (t.span.merge e.span) .neg e, q, rfl, bind_of_ok run⟩
  | @plus _ t _ _ _ ht unsigned h =>
    simp only [List.length_cons] at few
    rw [firstOperand_plus ht unsigned]
    exact complete _ (by omega) h t.span
  | @literal _ t _ value ht =>
    have other {kind : TokenKind} (hkind : kind.literal? = none) : t.kind ≠ kind := by
      rintro rfl
      cases hkind.symm.trans ht
    rw [firstOperand_primary (other rfl) (other rfl) (other rfl)]
    exact ⟨.literal t.span value, t.span, rfl, primary_literal ht⟩
  | @negative _ t u _ x ht hu =>
    rw [firstOperand_negative ht hu]
    exact ⟨.literal (t.span.merge u.span) (.number (-x)), u.span, rfl, primary_negative ht hu⟩
  | @positive _ t u _ x ht hu =>
    rw [firstOperand_positive ht hu]
    exact ⟨.literal (t.span.merge u.span) (.number x), u.span, rfl, primary_positive ht hu⟩
  | @create _ t u ts name names _ ht hu h =>
    simp only [List.length_cons] at fits
    have fits' : ts.length ≤ bound := by omega
    obtain ⟨q, run⟩ := h.read fits' u.span
    rw [firstOperand_of_kind ht (by simp)]
    exact ⟨.create (t.span.merge q) (name :: names), q, rfl, primary_new ht hu run⟩
  | @parens _ t ts inner r us _ _ ht h hr links =>
    have less := h.takes.length_le
    simp only [List.length_cons] at few less
    obtain ⟨inner, q, rfl, run⟩ := complete 0 (by omega) h t.span
    rw [firstOperand_of_kind ht (by simp), primary_parens ht run hr]
    exact behind (by simp only [List.length_cons]; omega) links (Expr.unplaced_withSpan _ inner) r.span
  | chain h links =>
    cases h with
    | @var t _ name ht =>
      rw [firstOperand_of_kind ht (by simp), primary_ident ht]
      exact behind (Nat.lt_succ_self _) links rfl t.span
    | @withMember t u _ name ht hu =>
      rw [firstOperand_of_kind ht (by simp), primary_dot ht hu]
      exact behind (by simp only [List.length_cons]; omega) links rfl u.span

theorem Further.read (complete : ∀ level, Complete n level (operand level)) :
    ∀ {bound : Nat} {before : Expr} {ts : List Token} {e : Expr} {rest : List Token},
      Further level before ts e rest → ts.length ≤ n + 1 → ts.length ≤ bound →
        ∀ {left : Expr}, left.unplaced = before →
          ReadAs (extend operand level bound left) ts e rest
  | _, _, ts, _, _, .stop loose, _, _, left, hleft, p =>
    ⟨left, p, hleft, extend_stop fun op hop => loose op (Cursor.kind_mk_eq ts p ▸ hop)⟩
  | 0, _, _, _, _, .cons _ _ _ _, _, zero, _, _, _ => absurd zero (Nat.not_succ_le_zero _)
  | bound + 1, _, _, _, _, @Further.cons _ _ t _ op _ _ _ _ ht hlevel h further, few, fits, left,
      hleft, p => by
    have less := h.takes.length_le
    simp only [List.length_cons] at few fits
    obtain ⟨right, q, rfl, run⟩ := complete _ (by omega) h t.span
    rw [extend_cons ht hlevel ((rightOperand_eq op).trans run)]
    exact further.read complete (by omega) (by omega) (hleft ▸ rfl) q

theorem complete_parseAt : ∀ (bound level : Nat), Complete bound level (Expr.parseAt bound level)
  | 0, _, _, _, _, zero, h => absurd (Nat.le_trans h.takes.length_le zero) (by simp)
  | bound + 1, level, ts, e, rest, few, .intro h further => by
    have complete (level : Nat) : Complete bound level (Expr.parseAt bound level) :=
      complete_parseAt bound level
    intro p
    have less := h.takes.length_le
    obtain ⟨first, q, hfirst, run⟩ := h.read complete few few p
    have fits : _ ≤ bound := Nat.le_of_lt_succ (Nat.lt_of_lt_of_le less few)
    obtain ⟨e', q', he, run'⟩ := further.read complete (Nat.le_succ_of_le fits) fits hfirst q
    exact ⟨e', q', he, (bind_of_ok run).trans run'⟩

/-- **What is an expression is read as one.** -/
theorem Expression.parse (h : Expression 0 ts e rest) : ReadAs Expr.parse ts e rest :=
  complete_parseAt ts.length 0 (Nat.le_refl _) h

theorem complete_parse : Complete n 0 Expr.parse := fun _ _ _ _ h => h.parse

end PageScript.Grammar
