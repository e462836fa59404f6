import PageScript.Proofs.Syntax.Program.Expressions

/-!
# Proofs/Syntax/Grammar/Basic — what expressions are made of

`Grammar.Expression level ts e rest` says that an expression of a level stands in front of the tokens
`ts`, that it is `e` up to places, and that `rest` is left behind it: as much as can be taken has been
taken.  There is one relation for each part of an expression, without the counts that the readers go
by.  What an expression is made of has its parentheses in pairs (`Grammar.Expression.takes`).
-/

namespace PageScript

/-- The kind of the next token. -/
def Token.next : List Token → TokenKind
  | t :: _ => t.kind
  | [] => .endOfPage

/-- Whether the next token touches the one before it. -/
def Token.nextAdjacent : List Token → Bool
  | t :: _ => t.adjacent
  | [] => false

open Token (next nextAdjacent)

@[simp] theorem Token.next_cons (t : Token) (ts : List Token) : next (t :: ts) = t.kind := rfl

theorem Cursor.kind_mk_eq (ts : List Token) (p : Span) : (Cursor.mk ts p).kind = next ts := by
  cases ts <;> rfl

/-- No list of expressions goes on with the token. -/
structure TokenKind.StopsList (kind : TokenKind) : Prop extends kind.StopsExpr where
  comma : kind ≠ .symbol .comma

theorem TokenKind.StopsList.keyword {k : Keyword} (hk : (TokenKind.keyword k).binaryOp? = none) :
    (TokenKind.keyword k).StopsList :=
  ⟨⟨nofun, nofun, hk⟩, nofun⟩

theorem TokenKind.StopsList.rparen : (TokenKind.symbol .rparen).StopsList := ⟨⟨nofun, nofun, rfl⟩, nofun⟩

theorem TokenKind.Ends.stopsList {kind : TokenKind} (h : kind.Ends) : kind.StopsList :=
  ⟨h.stopsExpr, h.ne_comma⟩

/-- An expression may start with the token. -/
def TokenKind.startsOperand : TokenKind → Bool
  | .ident _ | .symbol .dot | .symbol .lparen | .symbol .plus | .symbol .minus | .keyword .notWord
  | .keyword .newWord => true
  | kind => kind.literal?.isSome

theorem TokenKind.ne_of_startsOperand {kind other : TokenKind} (h : kind.startsOperand = true)
    (hother : other.startsOperand = false) : kind ≠ other := by
  rintro rfl
  cases h.symm.trans hother

theorem TokenKind.startsOperand_of_literal? {kind : TokenKind} {value : Literal}
    (h : kind.literal? = some value) : kind.startsOperand = true := by
  unfold startsOperand
  split <;> first | rfl | exact h ▸ rfl

namespace Grammar

/-- The level of the right operand of an operator, by the kind of the token that it starts with. -/
def rightLevel (op : BinaryOp) (kind : TokenKind) : Nat :=
  if op.isComparison && kind.isKeyword .notWord then UnaryOp.not.strength else op.strength + 1

/-- Whether the tokens up to some that are left are one pair of parentheses. -/
def isParenthesized (ts rest : List Token) : Bool :=
  (Cursor.mk ts .origin).isParenthesized (Cursor.mk rest .origin)

/-- The members behind the first name of a `new` expression. -/
inductive Path : List Token → List Name → List Token → Prop
  | stop {ts} (other : next ts ≠ .symbol .dot) : Path ts [] ts
  | cons {t u ts name names rest} (ht : t.kind = .symbol .dot) (hu : u.kind.memberName? = some name)
      (further : Path ts names rest) : Path (t :: u :: ts) (name :: names) rest

/-- The head of a chain. -/
inductive Head : List Token → Expr → List Token → Prop
  | var {t ts name} (ht : t.kind = .ident name) : Head (t :: ts) (.var .origin name) ts
  | withMember {t u ts name} (ht : t.kind = .symbol .dot) (hu : u.kind.memberName? = some name) :
      Head (t :: u :: ts) (.withMember .origin name) ts

mutual

/-- An expression of a level. -/
inductive Expression : Nat → List Token → Expr → List Token → Prop
  | intro {level ts first us e rest} (h : Operand level ts first us)
      (further : Further level first us e rest) : Expression level ts e rest

/-- The first operand of an expression of a level, with the signs and the `not` in front of it. -/
inductive Operand : Nat → List Token → Expr → List Token → Prop
  | not {level t ts e rest} (ht : t.kind = .keyword .notWord) (hlevel : level ≤ UnaryOp.not.strength)
      (h : Expression UnaryOp.not.strength ts e rest) :
      Operand level (t :: ts) (.unary .origin .not e) rest
  | neg {level t ts e rest} (ht : t.kind = .symbol .minus) (unsigned : ∀ x, next ts ≠ .number x)
      (h : Expression (Parse.signedLevel level) ts e rest) :
      Operand level (t :: ts) (.unary .origin .neg e) rest
  | plus {level t ts e rest} (ht : t.kind = .symbol .plus) (unsigned : ∀ x, next ts ≠ .number x)
      (h : Expression (Parse.signedLevel level) ts e rest) : Operand level (t :: ts) e rest
  | literal {level t ts value} (ht : t.kind.literal? = some value) :
      Operand level (t :: ts) (.literal .origin value) ts
  | negative {level t u ts x} (ht : t.kind = .symbol .minus) (hu : u.kind = .number x) :
      Operand level (t :: u :: ts) (.literal .origin (.number (-x))) ts
  | positive {level t u ts x} (ht : t.kind = .symbol .plus) (hu : u.kind = .number x) :
      Operand level (t :: u :: ts) (.literal .origin (.number x)) ts
  | create {level t u ts name names rest} (ht : t.kind = .keyword .newWord) (hu : u.kind = .ident name)
      (h : Path ts names rest) :
      Operand level (t :: u :: ts) (.create .origin (name :: names)) rest
  | parens {level t ts e r us chain rest} (ht : t.kind = .symbol .lparen)
      (h : Expression 0 ts e (r :: us)) (hr : r.kind = .symbol .rparen)
      (links : Links e us chain rest) : Operand level (t :: ts) chain rest
  | chain {level ts head us chain rest} (h : Head ts head us) (links : Links head us chain rest) :
      Operand level ts chain rest

/-- All the links behind a part of a chain. -/
inductive Links : Expr → List Token → Expr → List Token → Prop
  | stop {chain ts} (paren : next ts ≠ .symbol .lparen)
      (dot : next ts = .symbol .dot → nextAdjacent ts = false) : Links chain ts chain ts
  | link {chain ts chain' us e rest} (h : Link chain ts chain' us) (further : Links chain' us e rest) :
      Links chain ts e rest

/-- One link behind a part of a chain: a member, or arguments in parentheses. -/
inductive Link : Expr → List Token → Expr → List Token → Prop
  | member {chain t u ts name} (ht : t.kind = .symbol .dot) (touching : t.adjacent = true)
      (hu : u.kind.memberName? = some name) : Link chain (t :: u :: ts) (.member .origin chain name) ts
  | apply {chain t u ts} (ht : t.kind = .symbol .lparen) (hu : u.kind = .symbol .rparen)
      (touching : u.adjacent = true) : Link chain (t :: u :: ts) (.call .origin chain []) ts
  | call {chain t ts args r us} (ht : t.kind = .symbol .lparen) (hargs : Arguments ts args (r :: us))
      (hr : r.kind = .symbol .rparen) : Link chain (t :: ts) (.call .origin chain args) us

/-- Arguments with commas in between, at least one. -/
inductive Arguments : List Token → List Arg → List Token → Prop
  | one {ts e rest} (h : Expression 0 ts e rest) (last : next rest ≠ .symbol .comma) :
      Arguments ts [.mk e (isParenthesized ts rest)] rest
  | cons {ts e t us args rest} (h : Expression 0 ts e (t :: us)) (ht : t.kind = .symbol .comma)
      (further : Arguments us args rest) :
      Arguments ts (.mk e (isParenthesized ts (t :: us)) :: args) rest

/-- Further operands behind an expression, joined to it by operators of a level or above. -/
inductive Further : Nat → Expr → List Token → Expr → List Token → Prop
  | stop {level e ts} (loose : ∀ op, (next ts).binaryOp? = some op → op.strength < level) :
      Further level e ts e ts
  | cons {level left t us op right vs e rest} (ht : t.kind.binaryOp? = some op)
      (hlevel : level ≤ op.strength) (h : Expression (rightLevel op (next us)) us right vs)
      (further : Further level (.binary .origin op left right) vs e rest) :
      Further level left (t :: us) e rest

end

/-! ## The tokens that are taken -/

/-- Tokens have been taken from the front, so many at least, with their parentheses in pairs. -/
def Takes (least : Nat) (ts rest : List Token) : Prop :=
  ∃ taken, ts = taken ++ rest ∧ least ≤ taken.length ∧ Expr.Paired (taken.map Token.kind)

namespace Takes

variable {i j : Nat} {t r : Token} {ts us rest : List Token}

theorem refl (ts : List Token) : Takes 0 ts ts := ⟨[], rfl, Nat.le_refl 0, .nil⟩

theorem trans (h : Takes i ts us) (h' : Takes j us rest) : Takes (i + j) ts rest := by
  obtain ⟨taken, rfl, hi, paired⟩ := h
  obtain ⟨taken', rfl, hj, paired'⟩ := h'
  refine ⟨taken ++ taken', (List.append_assoc ..).symm, ?_, List.map_append ▸ paired.append paired'⟩
  rw [List.length_append]
  exact Nat.add_le_add hi hj

theorem mono (h : Takes i ts rest) (hle : j ≤ i) : Takes j ts rest := by
  obtain ⟨taken, hts, hi, paired⟩ := h
  exact ⟨taken, hts, Nat.le_trans hle hi, paired⟩

theorem token (plain : t.kind.isPlain = true) : Takes 1 (t :: ts) ts :=
  ⟨[t], rfl, Nat.le_refl 1, .cons plain .nil⟩

theorem parens (ht : t.kind = .symbol .lparen) (h : Takes i ts (r :: rest))
    (hr : r.kind = .symbol .rparen) : Takes 1 (t :: ts) rest := by
  obtain ⟨taken, rfl, -, paired⟩ := h
  refine ⟨t :: (taken ++ [r]), by simp, Nat.le_add_left 1 _, ?_⟩
  rw [List.map_cons, List.map_append, List.map_singleton, ht, hr]
  exact paired.parens

theorem suffix (h : Takes i ts rest) : rest <:+ ts := by
  obtain ⟨taken, rfl, -⟩ := h
  exact List.suffix_append taken rest

theorem length_le (h : Takes i ts rest) : rest.length + i ≤ ts.length := by
  obtain ⟨taken, rfl, hi, -⟩ := h
  rw [List.length_append]
  omega

theorem eq_nil (h : Takes i [] rest) : rest = [] := List.suffix_nil.mp h.suffix

theorem exists_cons (h : Takes (i + 1) ts rest) : ∃ t us, ts = t :: us :=
  List.exists_cons_of_length_pos (Nat.lt_of_lt_of_le (Nat.succ_pos _) h.length_le)

theorem next_append (h : Takes (i + 1) ts us) (rest : List Token) : next (ts ++ rest) = next ts := by
  obtain ⟨t, vs, rfl⟩ := h.exists_cons
  rfl

/-- A parenthesis that is open is closed behind what is taken. -/
theorem afterClosing? (h : Takes i ts rest) (depth : Nat) :
    Cursor.afterClosing? (depth + 1) ts = Cursor.afterClosing? (depth + 1) rest := by
  obtain ⟨taken, rfl, -, paired⟩ := h
  exact paired taken rfl depth rest

end Takes

theorem Path.takes : ∀ {ts : List Token} {names : List Name} {rest : List Token}, Path ts names rest →
    Takes 0 ts rest
  | _, _, _, .stop _ => .refl _
  | _, _, _, .cons ht hu further =>
    ((Takes.token (ht ▸ rfl)).trans ((Takes.token (TokenKind.isPlain_of_memberName? hu)).trans
      further.takes)).mono (Nat.zero_le _)

theorem Head.takes {ts : List Token} {e : Expr} {rest : List Token} (h : Head ts e rest) :
    Takes 1 ts rest := by
  cases h with
  | var ht => exact .token (ht ▸ rfl)
  | withMember ht hu =>
    exact ((Takes.token (ht ▸ rfl)).trans (.token (TokenKind.isPlain_of_memberName? hu))).mono
      (by decide)

mutual

theorem Expression.takes : ∀ {level : Nat} {ts : List Token} {e : Expr} {rest : List Token},
    Expression level ts e rest → Takes 1 ts rest
  | _, _, _, _, .intro h further => h.takes.trans further.takes

theorem Operand.takes : ∀ {level : Nat} {ts : List Token} {e : Expr} {rest : List Token},
    Operand level ts e rest → Takes 1 ts rest
  | _, _, _, _, .not ht _ h | _, _, _, _, .neg ht _ h | _, _, _, _, .plus ht _ h =>
    ((Takes.token (ht ▸ rfl)).trans h.takes).mono (by decide)
  | _, _, _, _, .literal ht => .token (TokenKind.isPlain_of_literal? ht)
  | _, _, _, _, .negative ht hu | _, _, _, _, .positive ht hu =>
    ((Takes.token (ht ▸ rfl)).trans (.token (hu ▸ rfl))).mono (by decide)
  | _, _, _, _, .create ht hu h =>
    ((Takes.token (ht ▸ rfl)).trans ((Takes.token (hu ▸ rfl)).trans h.takes)).mono (by decide)
  | _, _, _, _, .parens ht h hr links => (Takes.parens ht h.takes hr).trans links.takes
  | _, _, _, _, .chain h links => h.takes.trans links.takes

theorem Links.takes : ∀ {chain : Expr} {ts : List Token} {e : Expr} {rest : List Token},
    Links chain ts e rest → Takes 0 ts rest
  | _, _, _, _, .stop _ _ => .refl _
  | _, _, _, _, .link h further => (h.takes.trans further.takes).mono (Nat.zero_le _)

theorem Link.takes : ∀ {chain : Expr} {ts : List Token} {e : Expr} {rest : List Token},
    Link chain ts e rest → Takes 1 ts rest
  | _, _, _, _, .member ht _ hu =>
    ((Takes.token (ht ▸ rfl)).trans (.token (TokenKind.isPlain_of_memberName? hu))).mono (by decide)
  | _, _, _, _, .apply ht hu _ => .parens ht (.refl _) hu
  | _, _, _, _, .call ht hargs hr => .parens ht hargs.takes hr

theorem Arguments.takes : ∀ {ts : List Token} {args : List Arg} {rest : List Token},
    Arguments ts args rest → Takes 1 ts rest
  | _, _, _, .one h _ => h.takes
  | _, _, _, .cons h ht further =>
    (h.takes.trans ((Takes.token (ht ▸ rfl)).trans further.takes)).mono (by decide)

theorem Further.takes : ∀ {level : Nat} {left : Expr} {ts : List Token} {e : Expr}
    {rest : List Token}, Further level left ts e rest → Takes 0 ts rest
  | _, _, _, _, _, .stop _ => .refl _
  | _, _, _, _, _, .cons ht _ h further =>
    ((Takes.token (TokenKind.isPlain_of_binaryOp? ht)).trans (h.takes.trans further.takes)).mono
      (Nat.zero_le _)

end

/-! ## The first token -/

theorem Head.starts {ts : List Token} {e : Expr} {rest : List Token} (h : Head ts e rest) :
    (next ts).startsOperand = true := by
  cases h with
  | var ht => exact congrArg TokenKind.startsOperand ht
  | withMember ht => exact congrArg TokenKind.startsOperand ht

theorem Operand.starts {level : Nat} {ts : List Token} {e : Expr} {rest : List Token}
    (h : Operand level ts e rest) : (next ts).startsOperand = true := by
  cases h with
  | literal ht => exact TokenKind.startsOperand_of_literal? ht
  | chain h => exact h.starts
  | not ht | neg ht | plus ht | negative ht | positive ht | create ht | parens ht =>
    exact congrArg TokenKind.startsOperand ht

theorem Expression.starts {level : Nat} {ts : List Token} {e : Expr} {rest : List Token}
    (h : Expression level ts e rest) : (next ts).startsOperand = true := by
  obtain ⟨h, -⟩ := h
  exact h.starts

theorem Arguments.starts {ts : List Token} {args : List Arg} {rest : List Token}
    (h : Arguments ts args rest) : (next ts).startsOperand = true := by
  cases h with
  | one h | cons h => exact h.starts

/-! ## The same tokens with others behind them -/

section

variable {ts us rest : List Token} {chain left : Expr} {level i depth : Nat}

theorem length_lt_of_afterClosing? : ∀ {ts : List Token} {depth : Nat} {rest : List Token},
    Cursor.afterClosing? depth ts = some rest → rest.length < ts.length
  | t :: ts, depth, rest, h => by
    unfold Cursor.afterClosing? at h
    split at h
    · exact Nat.lt_succ_of_lt (length_lt_of_afterClosing? h)
    · split at h
      · cases h
      · cases h
        exact Nat.lt_succ_self _
      · exact Nat.lt_succ_of_lt (length_lt_of_afterClosing? h)
    · cases h
    · cases h
    · cases h
    · exact Nat.lt_succ_of_lt (length_lt_of_afterClosing? h)

/-- With more tokens behind, a parenthesis is closed where it was, or only among those. -/
theorem afterClosing?_append (rest : List Token) : ∀ (ts : List Token) (depth : Nat),
    Cursor.afterClosing? depth (ts ++ rest) = (Cursor.afterClosing? depth ts).map (· ++ rest) ∨
      Cursor.afterClosing? depth ts = none ∧
        ∃ us, Cursor.afterClosing? depth (ts ++ rest) = some us ∧ us.length < rest.length
  | [], depth => by
    cases h : Cursor.afterClosing? depth rest with
    | none => exact .inl h
    | some us => exact .inr ⟨rfl, us, h, length_lt_of_afterClosing? h⟩
  | t :: ts, depth => by
    rw [List.cons_append]
    unfold Cursor.afterClosing?
    split
    · exact afterClosing?_append rest ts _
    · split
      · exact .inl rfl
      · exact .inl rfl
      · exact afterClosing?_append rest ts _
    · exact .inl rfl
    · exact .inl rfl
    · exact .inl rfl
    · exact afterClosing?_append rest ts _

theorem isParenthesized_append (h : Takes (i + 1) ts us) (rest : List Token) :
    isParenthesized (ts ++ rest) (us ++ rest) = isParenthesized ts us := by
  rw [isParenthesized, isParenthesized, Cursor.isParenthesized, Cursor.isParenthesized,
    Cursor.kind_mk_eq, Cursor.kind_mk_eq, h.next_append]
  obtain same | ⟨none, vs, other, less⟩ := afterClosing?_append rest ts 0
  · rw [same]
    cases Cursor.afterClosing? 0 ts with
    | none => rfl
    | some vs =>
      simp only [Option.map_some, List.length_append]
      congr 1
      rw [Bool.eq_iff_iff, beq_iff_eq, beq_iff_eq]
      exact Nat.add_right_cancel_iff
  · have differ : (vs.length == (us ++ rest).length) = false := by
      rw [beq_eq_false_iff_ne, List.length_append]
      omega
    rw [none, other]
    exact congrArg _ differ

/-- If nothing is left of some tokens, no list of expressions goes on with what stands behind them. -/
def Fenced (ts rest : List Token) : Prop := ts = [] → (next rest).StopsList

theorem Fenced.of_takes (h : Fenced us rest) (taken : Takes i ts us) : Fenced ts rest := by
  rintro rfl
  exact h taken.eq_nil

theorem Fenced.next_or (h : Fenced ts rest) :
    next (ts ++ rest) = next ts ∧ nextAdjacent (ts ++ rest) = nextAdjacent ts ∨
      (next (ts ++ rest)).StopsList := by
  cases ts with
  | nil => exact .inr (h rfl)
  | cons => exact .inl ⟨rfl, rfl⟩

theorem Path.append : ∀ {ts : List Token} {names : List Name} {us : List Token}, Path ts names us →
    Fenced us rest → Path (ts ++ rest) names (us ++ rest)
  | _, _, _, .stop other, fenced => by
    obtain ⟨same, -⟩ | stops := fenced.next_or
    · exact .stop (same ▸ other)
    · exact .stop stops.dot
  | _, _, _, .cons ht hu further, fenced => .cons ht hu (further.append fenced)

theorem Head.append {e : Expr} (h : Head ts e us) (rest : List Token) :
    Head (ts ++ rest) e (us ++ rest) := by
  cases h with
  | var ht => exact .var ht
  | withMember ht hu => exact .withMember ht hu

end

mutual

variable {rest : List Token}

theorem Expression.append : ∀ {level : Nat} {ts : List Token} {e : Expr} {us : List Token},
    Expression level ts e us → Fenced us rest → Expression level (ts ++ rest) e (us ++ rest)
  | _, _, _, _, .intro h further, fenced =>
    .intro (h.append (fenced.of_takes further.takes)) (further.append fenced)

theorem Operand.append : ∀ {level : Nat} {ts : List Token} {e : Expr} {us : List Token},
    Operand level ts e us → Fenced us rest → Operand level (ts ++ rest) e (us ++ rest)
  | _, _, _, _, .not ht hlevel h, fenced => .not ht hlevel (h.append fenced)
  | _, _, _, _, .neg ht unsigned h, fenced =>
    .neg ht (h.takes.next_append rest ▸ unsigned) (h.append fenced)
  | _, _, _, _, .plus ht unsigned h, fenced =>
    .plus ht (h.takes.next_append rest ▸ unsigned) (h.append fenced)
  | _, _, _, _, .literal ht, _ => .literal ht
  | _, _, _, _, .negative ht hu, _ => .negative ht hu
  | _, _, _, _, .positive ht hu, _ => .positive ht hu
  | _, _, _, _, .create ht hu h, fenced => .create ht hu (h.append fenced)
  | _, _, _, _, .parens ht h hr links, fenced => .parens ht (h.append nofun) hr (links.append fenced)
  | _, _, _, _, .chain h links, fenced => .chain (h.append rest) (links.append fenced)

theorem Links.append : ∀ {chain : Expr} {ts : List Token} {e : Expr} {us : List Token},
    Links chain ts e us → Fenced us rest → Links chain (ts ++ rest) e (us ++ rest)
  | _, _, _, _, .stop paren dot, fenced => by
    obtain ⟨same, touching⟩ | stops := fenced.next_or
    · exact .stop (same ▸ paren) (same ▸ touching ▸ dot)
    · exact .stop stops.lparen fun h => absurd h stops.dot
  | _, _, _, _, .link h further, fenced => .link h.append (further.append fenced)

/-- A link ends with a token of its own. -/
theorem Link.append : ∀ {chain : Expr} {ts : List Token} {e : Expr} {us : List Token},
    Link chain ts e us → Link chain (ts ++ rest) e (us ++ rest)
  | _, _, _, _, .member ht touching hu => .member ht touching hu
  | _, _, _, _, .apply ht hu touching => .apply ht hu touching
  | _, _, _, _, .call ht hargs hr => .call ht (hargs.append nofun) hr

theorem Arguments.append : ∀ {ts : List Token} {args : List Arg} {us : List Token},
    Arguments ts args us → Fenced us rest → Arguments (ts ++ rest) args (us ++ rest)
  | _, _, us, .one h last, fenced => by
    have further : next (us ++ rest) ≠ .symbol .comma := by
      obtain ⟨same, -⟩ | stops := fenced.next_or
      · exact same ▸ last
      · exact stops.comma
    rw [← isParenthesized_append h.takes rest]
    exact .one (h.append fenced) further
  | _, _, _, .cons h ht further, fenced => by
    rw [← isParenthesized_append h.takes rest]
    exact .cons (h.append nofun) ht (further.append fenced)

theorem Further.append : ∀ {level : Nat} {left : Expr} {ts : List Token} {e : Expr}
    {us : List Token}, Further level left ts e us → Fenced us rest →
      Further level left (ts ++ rest) e (us ++ rest)
  | _, _, _, _, _, .stop loose, fenced => by
    obtain ⟨same, -⟩ | stops := fenced.next_or
    · exact .stop (same ▸ loose)
    · exact .stop fun op hop => nomatch stops.op.symm.trans hop
  | _, _, _, _, _, .cons ht hlevel h further, fenced =>
    .cons ht hlevel (h.takes.next_append rest ▸ h.append (fenced.of_takes further.takes))
      (further.append fenced)

end

/-! ## Links one behind the other -/

/-- Some links behind a part of a chain, be there more or not. -/
inductive Linked : Expr → List Token → Expr → List Token → Prop
  | nil {chain ts} : Linked chain ts chain ts
  | cons {chain ts chain' us e rest} (h : Link chain ts chain' us) (further : Linked chain' us e rest) :
      Linked chain ts e rest

variable {chain e e' : Expr} {ts us vs : List Token}

theorem Linked.append (h : Linked chain ts e us) (rest : List Token) :
    Linked chain (ts ++ rest) e (us ++ rest) := by
  induction h with
  | nil => exact .nil
  | cons h _ ih => exact .cons h.append ih

theorem Links.linked : ∀ {chain : Expr} {ts : List Token} {e : Expr} {rest : List Token},
    Links chain ts e rest → Linked chain ts e rest ∧ next rest ≠ .symbol .lparen ∧
      (next rest = .symbol .dot → nextAdjacent rest = false)
  | _, _, _, _, .stop paren dot => ⟨.nil, paren, dot⟩
  | _, _, _, _, .link h further => ⟨.cons h further.linked.1, further.linked.2⟩

end Grammar

end PageScript
