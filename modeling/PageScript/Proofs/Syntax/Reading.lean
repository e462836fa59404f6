import PageScript.Proofs.Syntax.Writing

/-!
# Proofs/Syntax/Reading — what is written is read back

Operators are joined from the left while the reader is under way, so an operand on the left of an
operator is never read as an expression of its own.  `Reads` is therefore about the reader in the
middle of its work: behind the tokens of an expression it stands as if it had that expression in
hand.  `ReadsChain` is the same for chains, whose links are added one by one.  Both follow the
derivation of a writing (`Expr.WrittenAt.reads`); spans are left out of the comparison.
-/

namespace PageScript

/-! ## Expressions without their places -/

mutual

/-- The expression with all spans forgotten. -/
def Expr.unplaced : Expr → Expr
  | .literal _ value => .literal .origin value
  | .var _ name => .var .origin name
  | .member _ object name => .member .origin object.unplaced name
  | .withMember _ name => .withMember .origin name
  | .call _ callee args => .call .origin callee.unplaced (Expr.unplacedArgs args)
  | .create _ path => .create .origin path
  | .binary _ op left right => .binary .origin op left.unplaced right.unplaced
  | .unary _ op operand => .unary .origin op operand.unplaced

/-- The arguments with all spans forgotten. -/
def Expr.unplacedArgs : List Arg → List Arg
  | [] => []
  | arg :: rest => arg.unplaced :: Expr.unplacedArgs rest

/-- The argument with all spans forgotten. -/
def Arg.unplaced : Arg → Arg
  | .mk value byValue => .mk value.unplaced byValue

end

@[simp] theorem Expr.unplaced_withSpan (s : Span) (e : Expr) :
    (e.withSpan s).unplaced = e.unplaced := by
  cases e <;> rfl

theorem Expr.isReference_unplaced (e : Expr) : e.unplaced.isReference = e.isReference := by
  cases e <;> rfl

theorem Expr.isPlace_unplaced (e : Expr) : e.unplaced.isPlace = e.isPlace := by
  cases e <;> rfl

/-! ## Tokens of pieces -/

/-- A token of a piece: what it is, and whether it touches the token before it. -/
structure Piece.Gives (p : Piece) (t : Token) : Prop where
  kind : t.kind = p.kind
  touching : p.gap = [] → t.adjacent = true

/-- Tokens of pieces; nobody asks whether the first one touches anything. -/
def Piece.GiveAll : List Piece → List Token → Prop
  | [], ts => ts = []
  | p :: ps, ts => ∃ u us, ts = u :: us ∧ u.kind = p.kind ∧ List.Forall₂ Piece.Gives ps us

namespace Piece.GiveAll

variable {ps qs : List Piece} {ts : List Token}

theorem of_forall₂ : ∀ {ps : List Piece} {ts : List Token}, List.Forall₂ Piece.Gives ps ts →
    GiveAll ps ts
  | [], _, .nil => rfl
  | _ :: _, _, .cons h further => ⟨_, _, rfl, h.kind, further⟩

theorem length : ∀ {ps : List Piece} {ts : List Token}, GiveAll ps ts → ts.length = ps.length
  | [], _, rfl => rfl
  | _ :: _, _, ⟨_, _, rfl, _, further⟩ => by
    rw [List.length_cons, List.length_cons, further.length_eq]

theorem kinds : ∀ {ps : List Piece} {ts : List Token}, GiveAll ps ts →
    ts.map Token.kind = Expr.kinds ps
  | [], _, rfl => rfl
  | _ :: ps, _, ⟨_, us, rfl, h, further⟩ => by
    have rest : us.map Token.kind = Expr.kinds ps := by
      induction further with
      | nil => rfl
      | cons h _ ih => rw [List.map_cons, Expr.kinds_cons, h.kind, ih]
    rw [List.map_cons, Expr.kinds_cons, h, rest]

theorem append (h : GiveAll (ps ++ qs) ts) (hps : ps ≠ []) :
    ∃ ts₁ ts₂, ts = ts₁ ++ ts₂ ∧ GiveAll ps ts₁ ∧ List.Forall₂ Piece.Gives qs ts₂ := by
  cases ps with
  | nil => exact absurd rfl hps
  | cons p ps =>
    obtain ⟨u, us, rfl, hu, further⟩ := h
    have first := List.forall₂_take_append us ps qs further.flip
    have second := List.forall₂_drop_append us ps qs further.flip
    refine ⟨u :: us.take ps.length, us.drop ps.length, ?_, ⟨_, _, rfl, hu, first.flip⟩, second.flip⟩
    rw [List.cons_append, List.take_append_drop]

end Piece.GiveAll

/-! ## The reader in the middle of its work -/

open Parse

/-- What may stand behind an expression without becoming a part of it: neither arguments nor a
member, and only operators that bind less than a level. -/
structure Follows (level : Nat) (rest : List Token) : Prop where
  lparen : (Cursor.mk rest .origin).kind ≠ .symbol .lparen
  dot : (Cursor.mk rest .origin).kind ≠ .symbol .dot
  op : ∀ op, (Cursor.mk rest .origin).kind.binaryOp? = some op → op.strength < level

namespace Follows

variable {level level' : Nat} {t : Token} {rest : List Token}

theorem mono (h : Follows level rest) (hle : level ≤ level') : Follows level' rest :=
  ⟨h.lparen, h.dot, fun op hop => Nat.lt_of_lt_of_le (h.op op hop) hle⟩

theorem of_rparen (ht : t.kind = .symbol .rparen) : Follows level (t :: rest) := by
  obtain ⟨kind, span, spaced, adjacent⟩ := t
  subst ht
  exact ⟨nofun, nofun, nofun⟩

theorem of_comma (ht : t.kind = .symbol .comma) : Follows level (t :: rest) := by
  obtain ⟨kind, span, spaced, adjacent⟩ := t
  subst ht
  exact ⟨nofun, nofun, nofun⟩

theorem of_binaryOp {op : BinaryOp} (ht : t.kind.binaryOp? = some op) (hop : op.strength < level) :
    Follows level (t :: rest) := by
  refine ⟨fun h => ?_, fun h => ?_, fun op' hop' => ?_⟩
  · cases (congrArg TokenKind.binaryOp? h).symm.trans ht
  · cases (congrArg TokenKind.binaryOp? h).symm.trans ht
  · cases hop'.symm.trans ht
    exact hop

/-- No operator between operands binds exactly as a sign or `not` does. -/
theorem of_unary {op : UnaryOp} (h : Follows (op.strength + 1) rest) :
    Follows op.strength rest := by
  refine ⟨h.lparen, h.dot, fun op' hop' => ?_⟩
  have hle := Nat.le_of_lt_succ (h.op op' hop')
  refine Nat.lt_of_le_of_ne hle ?_
  cases op <;> cases op' <;> decide

end Follows

namespace Expr

variable {bound level lvl k : Nat} {e : Expr} {t u : Token} {ts rest : List Token} {p : Span}

/-- The reader joins operators of a level with an expression in hand. -/
def resume (bound lvl k : Nat) (e : Expr) : Parse Expr := extend (Expr.parseAt bound) lvl k e

/-- The reader of a level from the start, with a bound on the number of operators. -/
def readAt (bound lvl k : Nat) : Parse Expr :=
  firstOperand (Expr.parseAt bound) bound lvl >>= resume bound lvl k

/-- Behind tokens of an expression, the reader stands as if it had the expression in hand. -/
def Reads (bound level : Nat) (e : Expr) (ts : List Token) : Prop :=
  ∀ ⦃lvl k : Nat⦄ ⦃rest : List Token⦄ ⦃p : Span⦄, lvl ≤ level → ts.length ≤ k + 1 →
    Follows (level + 1) rest → ∃ e' q k', e'.unplaced = e.unplaced ∧ k ≤ k' + ts.length ∧
      readAt bound lvl k ⟨ts ++ rest, p⟩ = resume bound lvl k' e' ⟨rest, q⟩

/-- Behind tokens of a chain, the reader of links stands as if it had the chain in hand. -/
def ReadsChain (bound : Nat) (e : Expr) (ts : List Token) : Prop :=
  ∀ (rest : List Token) (p : Span), ∃ e' q k' opening, e'.unplaced = e.unplaced ∧
    bound ≤ k' + ts.length ∧
      primary (Expr.parseAt bound 0) bound ⟨ts ++ rest, p⟩ =
        (links (Expr.parseAt bound 0) k' e' opening >>= fun r => pure r.1) ⟨rest, q⟩

/-- Where no operator of the level follows, the expression has been read. -/
theorem Reads.parse (h : Reads bound level e ts) (hlvl : lvl ≤ level) (hts : ts.length ≤ bound + 1)
    (hrest : Follows lvl rest) :
    ∃ e' q, e'.unplaced = e.unplaced ∧
      Expr.parseAt (bound + 1) lvl ⟨ts ++ rest, p⟩ = .ok (e', ⟨rest, q⟩) := by
  obtain ⟨e', q, k, he, -, hrun⟩ := h hlvl hts (hrest.mono (Nat.le_succ_of_le hlvl))
  refine ⟨e', q, he, Eq.trans hrun ?_⟩
  exact extend_stop hrest.op

theorem Reads.mono (h : Reads bound level e ts) (hle : lvl ≤ level) : Reads bound lvl e ts :=
  fun _ _ _ _ hlvl hk hrest =>
    h (Nat.le_trans hlvl hle) hk (hrest.mono (Nat.succ_le_succ hle))

/-- An operand that is read in one go. -/
theorem reads_of_operand
    (h : ∀ {lvl : Nat} {rest : List Token} {p : Span}, lvl ≤ level → Follows (level + 1) rest →
      ∃ e' q, e'.unplaced = e.unplaced ∧
        firstOperand (Expr.parseAt bound) bound lvl ⟨ts ++ rest, p⟩ = .ok (e', ⟨rest, q⟩)) :
    Reads bound level e ts := by
  intro lvl k rest p hlvl _ hrest
  obtain ⟨e', q, he, hrun⟩ := h (p := p) hlvl hrest
  exact ⟨e', q, k, he, Nat.le_add_right _ _, bind_of_ok hrun⟩

/-- A chain is an operand, wherever it ends. -/
theorem ReadsChain.reads {ps : List Piece} (h : ReadsChain bound e ts)
    (hts : Piece.GiveAll ps ts) (hstarts : StartsAt chainStrength ps) : Reads bound level e ts := by
  obtain ⟨x, xs, rfl, starts⟩ := hstarts
  obtain ⟨t, us, rfl, ht, -⟩ := hts
  rw [← ht] at starts
  refine reads_of_operand fun {lvl rest p} _ hrest => ?_
  obtain ⟨e', q, k', opening, he, -, hrun⟩ := h rest p
  refine ⟨e', q, he, ?_⟩
  rw [List.cons_append] at hrun ⊢
  rw [firstOperand_primary (starts.not (by decide)) (starts.minus (by decide)) starts.plus, hrun,
    bind_of_ok (links_stop (p := q) hrest.lparen hrest.dot)]
  rfl

theorem ReadsChain.both {ps : List Piece} {Q : Prop} (h : ReadsChain bound e ts)
    (hts : Piece.GiveAll ps ts) (hstarts : StartsAt chainStrength ps) :
    Reads bound level e ts ∧ (Q → ReadsChain bound e ts) :=
  ⟨h.reads hts hstarts, fun _ => h⟩

/-- An expression in parentheses is a chain. -/
theorem readsChain_of_parens {l r : Token} (hl : l.kind = .symbol .lparen)
    (hr : r.kind = .symbol .rparen) (h : Reads bound 0 e ts) (hts : ts.length ≤ bound + 1) :
    ReadsChain (bound + 1) e (l :: (ts ++ [r])) := by
  intro rest p
  have behind : Follows 0 (r :: rest) := .of_rparen hr
  obtain ⟨e', q, he, hrun⟩ := h.parse (p := l.span) (Nat.le_refl 0) hts behind
  refine ⟨e'.withSpan (l.span.merge r.span), r.span, bound + 1, none, ?_, Nat.le_add_right _ _, ?_⟩
  · rw [unplaced_withSpan, he]
  · rw [List.cons_append, List.append_assoc]
    exact primary_parens hl hrun hr

/-! ## Operands of one or two tokens -/

theorem reads_literal {s : Span} {value : Literal} (h : t.kind.literal? = some value) :
    Reads bound level (.literal s value) [t] := by
  have other {kind : TokenKind} (hnone : kind.literal? = none) : t.kind ≠ kind := by
    rintro rfl
    cases hnone.symm.trans h
  refine reads_of_operand fun _ _ => ⟨.literal t.span value, t.span, rfl, ?_⟩
  exact (firstOperand_primary (other rfl) (other rfl) (other rfl)).trans (primary_literal h)

theorem reads_negative {s : Span} {x : Float} (ht : t.kind = .symbol .minus)
    (hu : u.kind = .number x) : Reads bound level (.literal s (.number (-x))) [t, u] := by
  refine reads_of_operand fun _ _ =>
    ⟨.literal (t.span.merge u.span) (.number (-x)), u.span, rfl, ?_⟩
  exact (firstOperand_negative ht hu).trans (primary_negative ht hu)

theorem readsChain_var {s : Span} {name : Name} (ht : t.kind = .ident name) :
    ReadsChain bound (.var s name) [t] :=
  fun _ _ => ⟨.var t.span name, t.span, bound, none, rfl, Nat.le_add_right _ _, primary_ident ht⟩

theorem readsChain_withMember {s : Span} {name : Name} (ht : t.kind = .symbol .dot)
    (hu : u.kind.memberName? = some name) : ReadsChain bound (.withMember s name) [t, u] :=
  fun _ _ => ⟨.withMember (t.span.merge u.span) name, u.span, bound, none, rfl,
    Nat.le_add_right _ _, primary_dot ht hu⟩

theorem reads_create {s : Span} {first : Name} {names : List Name} (ht : t.kind = .keyword .newWord)
    (hu : u.kind = .ident first)
    (hpath : ∀ {rest : List Token}, Follows (level + 1) rest →
      ∃ q, createdPath bound ⟨ts ++ rest, u.span⟩ = .ok (names, ⟨rest, q⟩)) :
    Reads bound level (.create s (first :: names)) (t :: u :: ts) := by
  refine reads_of_operand fun _ hrest => ?_
  obtain ⟨q, hread⟩ := hpath hrest
  refine ⟨.create (t.span.merge q) (first :: names), q, rfl, ?_⟩
  refine (firstOperand_primary ?_ ?_ ?_).trans (primary_new ht hu hread)
  · simp [ht]
  · simp [ht]
  · simp [ht]

/-! ## One more link -/

theorem ReadsChain.member {s : Span} {name : Name} (h : ReadsChain bound e ts)
    (hbound : ts.length < bound) (ht : t.kind = .symbol .dot) (touching : t.adjacent = true)
    (hu : u.kind.memberName? = some name) :
    ReadsChain bound (.member s e name) (ts ++ [t, u]) := by
  intro rest p
  obtain ⟨e', q, k, opening, he, hk, hrun⟩ := h (t :: u :: rest) p
  obtain ⟨k, rfl⟩ : ∃ k', k = k' + 1 := ⟨k - 1, by omega⟩
  refine ⟨.member (e'.span.merge u.span) e' name, u.span, k, none, ?_, ?_, ?_⟩
  · rw [unplaced, unplaced, he]
  · rw [List.length_append]
    change _ ≤ k + (ts.length + 2)
    omega
  · rw [List.append_assoc]
    exact hrun.trans (bind_congr_run (links_member ht touching hu))

theorem ReadsChain.apply {s : Span} (h : ReadsChain bound e ts) (hbound : ts.length < bound)
    (ht : t.kind = .symbol .lparen) (hu : u.kind = .symbol .rparen) (touching : u.adjacent = true) :
    ReadsChain bound (.call s e []) (ts ++ [t, u]) := by
  intro rest p
  obtain ⟨e', q, k, opening, he, hk, hrun⟩ := h (t :: u :: rest) p
  obtain ⟨k, rfl⟩ : ∃ k', k = k' + 1 := ⟨k - 1, by omega⟩
  refine ⟨.call (e'.span.merge u.span) e' [], u.span, k, some ⟨t :: u :: rest, q⟩, ?_, ?_, ?_⟩
  · rw [unplaced, unplaced, he]
  · rw [List.length_append]
    change _ ≤ k + (ts.length + 2)
    omega
  · rw [List.append_assoc]
    exact hrun.trans (bind_congr_run (links_apply ht hu touching))

/-- Behind tokens of arguments, the reader of arguments is at the closing parenthesis. -/
def ReadsArgs (bound : Nat) (args : List Arg) (ts : List Token) : Prop :=
  ∀ ⦃r : Token⦄ ⦃rest : List Token⦄ ⦃p : Span⦄, r.kind = .symbol .rparen →
    ∃ args' q, unplacedArgs args' = unplacedArgs args ∧
      commaList (argument (Expr.parseAt bound 0)) ⟨ts ++ r :: rest, p⟩ =
        .ok (args', ⟨r :: rest, q⟩)

theorem ReadsChain.call {s : Span} {args : List Arg} {us : List Token} {r : Token}
    (h : ReadsChain bound e ts) (hbound : ts.length < bound) (ht : t.kind = .symbol .lparen)
    (hargs : ReadsArgs bound args (u :: us)) (hu : u.kind ≠ .symbol .rparen)
    (hr : r.kind = .symbol .rparen) :
    ReadsChain bound (.call s e args) (ts ++ t :: (u :: us ++ [r])) := by
  intro rest p
  obtain ⟨e', q, k, opening, he, hk, hrun⟩ :=
    h (t :: (u :: us ++ r :: rest)) p
  obtain ⟨k, rfl⟩ : ∃ k', k = k' + 1 := ⟨k - 1, by omega⟩
  obtain ⟨args', q', hargs', hread⟩ := @hargs r rest t.span hr
  refine ⟨.call (e'.span.merge r.span) e' args', r.span, k,
    some ⟨t :: (u :: us ++ r :: rest), q⟩, ?_, ?_, ?_⟩
  · rw [unplaced, unplaced, he, hargs']
  · rw [List.length_append, List.length_cons]
    omega
  · rw [List.append_assoc, List.cons_append, List.append_assoc]
    exact hrun.trans (bind_congr_run (links_call ht hu hread hr))

/-! ## Operators -/

theorem Reads.unary {op : UnaryOp} {s : Span} (h : Reads bound op.strength e ts)
    (hts : ts.length ≤ bound + 1)
    (hrun : ∀ {lvl : Nat} {rest : List Token} {p : Span}, lvl ≤ op.strength →
      firstOperand (Expr.parseAt (bound + 1)) (bound + 1) lvl ⟨t :: (ts ++ rest), p⟩ =
        (Expr.parseAt (bound + 1) op.strength >>= fun e =>
          pure (.unary (t.span.merge e.span) op e)) ⟨ts ++ rest, t.span⟩) :
    Reads (bound + 1) op.strength (.unary s op e) (t :: ts) := by
  refine reads_of_operand fun {lvl rest p} hlvl hrest => ?_
  obtain ⟨e', q, he, hparse⟩ :=
    h.parse (p := t.span) (Nat.le_refl _) hts hrest.of_unary
  refine ⟨.unary (t.span.merge e'.span) op e', q, ?_, ?_⟩
  · rw [unplaced, unplaced, he]
  · rw [List.cons_append, hrun hlvl, bind_of_ok hparse]
    rfl

theorem Reads.not {s : Span} (h : Reads bound UnaryOp.not.strength e ts)
    (hts : ts.length ≤ bound + 1) (ht : t.kind = .keyword .notWord) :
    Reads (bound + 1) UnaryOp.not.strength (.unary s .not e) (t :: ts) :=
  h.unary hts fun hlvl => firstOperand_not ht hlvl

/-- The operand of a sign does not start with a number. -/
theorem Reads.neg {s : Span} (h : Reads bound UnaryOp.neg.strength e (u :: ts))
    (hts : ts.length ≤ bound) (ht : t.kind = .symbol .minus) (hu : ∀ x, u.kind ≠ .number x) :
    Reads (bound + 1) UnaryOp.neg.strength (.unary s .neg e) (t :: u :: ts) := by
  refine h.unary (Nat.succ_le_succ hts) fun {lvl rest p} hlvl => ?_
  have signed : signedLevel lvl = UnaryOp.neg.strength := if_pos hlvl
  have hus : ∀ x, (Cursor.mk (u :: ts ++ rest) t.span).kind ≠ .number x := hu
  rw [firstOperand_neg ht hus, signed]

theorem Reads.binary {op : BinaryOp} {s : Span} {left right : Expr} {ls us : List Token}
    (hleft : Reads (bound + 1) op.strength left ls) (ht : t.kind.binaryOp? = some op)
    (hright : Reads bound (op.strength + 1) right (u :: us)) (hus : us.length ≤ bound)
    (hnot : op.isComparison = true → u.kind ≠ .keyword .notWord) :
    Reads (bound + 1) op.strength (.binary s op left right) (ls ++ t :: u :: us) := by
  intro lvl k rest p hlvl hk hrest
  rw [List.length_append, List.length_cons, List.length_cons] at hk
  have behind : Follows (op.strength + 1) (t :: (u :: us ++ rest)) :=
    .of_binaryOp ht (Nat.lt_succ_self _)
  obtain ⟨left', q, k₁, hleft', hk₁, hrun⟩ := hleft (k := k) (p := p) hlvl (by omega) behind
  obtain ⟨k₂, rfl⟩ : ∃ k', k₁ = k' + 1 := ⟨k₁ - 1, by omega⟩
  obtain ⟨right', q', hright', hparse⟩ :=
    hright.parse (p := t.span) (Nat.le_refl _) (Nat.succ_le_succ hus) hrest
  have operand : rightOperand (Expr.parseAt (bound + 1)) op ⟨u :: us ++ rest, t.span⟩ =
      .ok (right', ⟨rest, q'⟩) :=
    (rightOperand_of_ne hnot).trans hparse
  refine ⟨Expr.join op left' right', q', k₂, ?_, ?_, ?_⟩
  · rw [Expr.join, unplaced, unplaced, hleft', hright']
  · rw [List.length_append, List.length_cons, List.length_cons]
    omega
  · rw [List.append_assoc]
    exact hrun.trans (extend_cons ht hlvl operand)

/-! ## Arguments -/

theorem afterClosing?_pair {l r : Token} (hl : l.kind = .symbol .lparen)
    (hr : r.kind = .symbol .rparen) (paired : Paired (ts.map Token.kind)) :
    Cursor.afterClosing? 0 (l :: (ts ++ r :: rest)) = some rest := by
  obtain ⟨_, _, _, _⟩ := l
  obtain ⟨_, _, _, _⟩ := r
  subst hl hr
  exact (paired ts rfl 0 _).trans rfl

theorem isParenthesized_of_parens {l r : Token} {q : Span} (hl : l.kind = .symbol .lparen)
    (hr : r.kind = .symbol .rparen) (paired : Paired (ts.map Token.kind)) :
    (Cursor.mk (l :: (ts ++ r :: rest)) p).isParenthesized ⟨rest, q⟩ = true := by
  have first : (Cursor.mk (l :: (ts ++ r :: rest)) p).kind.isSymbol .lparen = true :=
    TokenKind.isSymbol_iff.mpr hl
  rw [Cursor.isParenthesized, first, afterClosing?_pair hl hr paired]
  exact beq_self_eq_true rest.length

/-- What is written without parentheses around all of it is not taken for such. -/
theorem isParenthesized_of_bare {ps : List Piece} {q : Span} (h : Bare e ps)
    (hts : Piece.GiveAll ps ts) :
    (Cursor.mk (ts ++ rest) p).isParenthesized ⟨rest, q⟩ = false := by
  rw [Cursor.isParenthesized, Bool.and_eq_false_imp]
  intro first
  obtain ⟨x, xs, rfl, -⟩ := h.starts
  have kinds := hts.kinds
  obtain ⟨u, us, rfl, hu, -⟩ := hts
  have hx : x.kind = .symbol .lparen := hu.symm.trans (TokenKind.isSymbol_iff.mp first)
  -- The first pair of parentheses closes with pieces left behind it: `afterClosing?` stops early.
  obtain ⟨tail, ⟨l, inner, r, heq, hl, hr, paired⟩, hne⟩ := h.leads ⟨x, xs, rfl, hx⟩
  rw [heq, kinds_cons, kinds_append, kinds_cons] at kinds
  obtain ⟨tl, us', heq', htl, hus⟩ := List.map_eq_cons_iff.mp kinds
  obtain ⟨ts₁, ts₂, rfl, h₁, h₂⟩ := List.map_eq_append_iff.mp hus
  obtain ⟨tr, ts₃, rfl, htr, h₃⟩ := List.map_eq_cons_iff.mp h₂
  rw [heq', List.cons_append, List.append_assoc, List.cons_append,
    afterClosing?_pair (htl.trans hl) (htr.trans hr) (h₁ ▸ paired)]
  have more : 0 < ts₃.length := by
    refine List.length_pos_iff.mpr ?_
    rintro rfl
    exact hne (List.map_eq_nil_iff.mp h₃.symm)
  change ((ts₃ ++ rest).length == rest.length) = false
  rw [List.length_append, beq_eq_false_iff_ne]
  omega

/-- Behind tokens of an argument, the reader has it with its mark. -/
def ReadsArg (bound : Nat) (arg : Arg) (ts : List Token) : Prop :=
  ∀ ⦃rest : List Token⦄ ⦃p : Span⦄, Follows 0 rest →
    ∃ value q, value.unplaced = arg.value.unplaced ∧
      argument (Expr.parseAt bound 0) ⟨ts ++ rest, p⟩ = .ok (.mk value arg.byValue, ⟨rest, q⟩)

theorem readsArg_of_bare {ps : List Piece} (h : Bare e ps) (hts : Piece.GiveAll ps ts)
    (hreads : Reads bound level e ts) (hlen : ts.length ≤ bound + 1) :
    ReadsArg (bound + 1) (.mk e false) ts := by
  intro rest p hrest
  obtain ⟨value, q, hvalue, hparse⟩ := hreads.parse (p := p) (Nat.zero_le _) hlen hrest
  refine ⟨value, q, hvalue, ?_⟩
  rw [argument_of_ok hparse, isParenthesized_of_bare h hts]
  rfl

theorem readsArg_of_parens {l r : Token} (hl : l.kind = .symbol .lparen)
    (hr : r.kind = .symbol .rparen) (paired : Paired (ts.map Token.kind))
    (hreads : Reads bound 0 e (l :: (ts ++ [r]))) (hlen : ts.length + 2 ≤ bound + 1) :
    ReadsArg (bound + 1) (.mk e true) (l :: (ts ++ [r])) := by
  intro rest p hrest
  have hlen' : (l :: (ts ++ [r])).length ≤ bound + 1 := by
    rw [List.length_cons, List.length_append]
    exact hlen
  obtain ⟨value, q, hvalue, hparse⟩ := hreads.parse (p := p) (Nat.zero_le _) hlen' hrest
  refine ⟨value, q, hvalue, ?_⟩
  rw [argument_of_ok hparse, List.cons_append, List.append_assoc]
  rw [List.singleton_append, isParenthesized_of_parens hl hr paired]
  rfl

/-- Behind tokens of arguments, the reader of a list with commas is at the closing parenthesis. -/
def ReadsSeparated (bound : Nat) (args : List Arg) (ts : List Token) : Prop :=
  ∀ ⦃r : Token⦄ ⦃rest : List Token⦄ ⦃p : Span⦄ ⦃n : Nat⦄, r.kind = .symbol .rparen →
    ts.length ≤ n + 1 → ∃ args' q, unplacedArgs args' = unplacedArgs args ∧
      commaSeparated (argument (Expr.parseAt bound 0)) n ⟨ts ++ r :: rest, p⟩ =
        .ok (args', ⟨r :: rest, q⟩)

theorem ReadsArg.one {arg : Arg} (h : ReadsArg bound arg ts) : ReadsSeparated bound [arg] ts := by
  intro r rest p n hr _
  have behind : Follows 0 (r :: rest) := .of_rparen hr
  obtain ⟨value, q, hvalue, hrun⟩ := h (p := p) behind
  obtain ⟨value', byValue⟩ := arg
  refine ⟨[.mk value byValue], q, ?_, ?_⟩
  · change [Arg.mk value.unplaced byValue] = [Arg.mk value'.unplaced byValue]
    rw [hvalue]
    rfl
  · refine commaSeparated_one hrun fun h => ?_
    cases h.symm.trans hr

theorem ReadsArg.cons {arg : Arg} {args : List Arg} {us : List Token} (h : ReadsArg bound arg ts)
    (hts : 0 < ts.length) (ht : t.kind = .symbol .comma) (further : ReadsSeparated bound args us) :
    ReadsSeparated bound (arg :: args) (ts ++ t :: us) := by
  intro r rest p n hr hn
  rw [List.length_append, List.length_cons] at hn
  obtain ⟨n, rfl⟩ : ∃ n', n = n' + 1 := ⟨n - 1, by omega⟩
  have behind : Follows 0 (t :: (us ++ r :: rest)) := .of_comma ht
  obtain ⟨value, q, hvalue, hrun⟩ := h (p := p) behind
  obtain ⟨args', q', hargs, hfurther⟩ := @further r rest t.span n hr (by omega)
  obtain ⟨value', byValue⟩ := arg
  refine ⟨.mk value byValue :: args', q', ?_, ?_⟩
  · change Arg.mk value.unplaced byValue :: _ = Arg.mk value'.unplaced byValue :: _
    rw [hvalue, hargs]
    rfl
  · rw [List.append_assoc]
    exact commaSeparated_cons hrun ht hfurther

theorem ReadsSeparated.readsArgs {args : List Arg} (h : ReadsSeparated bound args ts) :
    ReadsArgs bound args ts := by
  intro r rest p hr
  refine h hr ?_
  rw [List.length_append, List.length_cons]
  omega

/-! ## The derivation -/

theorem PathWritten.reads : ∀ {names : List Name} {ps : List Piece}, PathWritten names ps →
    ∀ {ts rest : List Token} {p : Span} {n : Nat}, List.Forall₂ Piece.Gives ps ts →
      ts.length ≤ n + 1 → Follows level rest →
        ∃ q, createdPath n ⟨ts ++ rest, p⟩ = .ok (names, ⟨rest, q⟩)
  | _, _, .nil, _, rest, p, n, .nil, _, hrest => ⟨p, createdPath_stop hrest.dot⟩
  | _, _, .cons hdot hname further, _, rest, p, n, .cons ht (.cons hu hus), hlen, hrest => by
    rw [List.length_cons, List.length_cons] at hlen
    obtain ⟨n, rfl⟩ : ∃ n', n = n' + 1 := ⟨n - 1, by omega⟩
    obtain ⟨q, hread⟩ := further.reads (n := n) hus (by omega) hrest
    refine ⟨q, createdPath_cons (ht.kind.trans hdot) ?_ hread⟩
    rw [hu.kind]
    exact hname

/-- Tokens of pieces in parentheses are tokens in parentheses. -/
theorem giveAll_parens {l r : Piece} {ps : List Piece} (hl : l.kind = .symbol .lparen)
    (hr : r.kind = .symbol .rparen) (hts : Piece.GiveAll (l :: (ps ++ [r])) ts) :
    ∃ tl us tr, ts = tl :: (us ++ [tr]) ∧ tl.kind = .symbol .lparen ∧
      tr.kind = .symbol .rparen ∧ List.Forall₂ Piece.Gives ps us := by
  obtain ⟨tl, us, rfl, htl, hus⟩ := hts
  have first := List.forall₂_take_append us ps [r] hus.flip
  have second := List.forall₂_drop_append us ps [r] hus.flip
  obtain ⟨tr, _, htr, hnil, hdrop⟩ := List.forall₂_cons_right_iff.mp second
  cases hnil
  refine ⟨tl, us.take ps.length, tr, ?_, htl.trans hl, htr.kind.trans hr, first.flip⟩
  rw [← hdrop, List.take_append_drop]

/-- Behind an operand the tokens are tokens of what follows it. -/
theorem StartsAt.giveAll {qs ps : List Piece} (h : StartsAt level ps)
    (hts : Piece.GiveAll (ps ++ qs) ts) :
    ∃ ts₁ ts₂, ts = ts₁ ++ ts₂ ∧ Piece.GiveAll ps ts₁ ∧ 0 < ts₁.length ∧
      List.Forall₂ Piece.Gives qs ts₂ := by
  obtain ⟨ts₁, ts₂, rfl, h₁, h₂⟩ := hts.append h.ne_nil
  refine ⟨ts₁, ts₂, rfl, h₁, ?_, h₂⟩
  rw [h₁.length]
  exact List.length_pos_iff.mpr h.ne_nil

mutual

/-- What is written without parentheses is read back. -/
theorem Bare.reads : ∀ {e : Expr} {ps : List Piece}, Bare e ps →
    ∀ (bound : Nat) {ts : List Token}, Piece.GiveAll ps ts → ts.length ≤ bound + 1 →
      Reads bound e.strength e ts ∧ (e.strength = chainStrength → ReadsChain bound e ts)
  | _, _, .literal hvalue, bound, ts, hts, hlen => by
    obtain ⟨t, _, rfl, ht, ⟨⟩⟩ := hts
    exact ⟨reads_literal (ht ▸ hvalue), nofun⟩
  | _, _, .negative hsign hnumber, bound, ts, hts, hlen => by
    obtain ⟨t, _, rfl, ht, hus⟩ := hts
    obtain _ | ⟨hu, ⟨⟩⟩ := hus
    exact ⟨reads_negative (ht.trans hsign) (hu.kind.trans hnumber), nofun⟩
  | _, _, .var (s := s) hname, bound, ts, hts, hlen => by
    refine ReadsChain.both ?_ hts (Bare.var (s := s) hname).starts
    obtain ⟨t, _, rfl, ht, ⟨⟩⟩ := hts
    exact readsChain_var (ht.trans hname)
  | _, _, .withMember (s := s) hdot hname, bound, ts, hts, hlen => by
    refine ReadsChain.both ?_ hts (Bare.withMember (s := s) hdot hname).starts
    obtain ⟨t, _, rfl, ht, hus⟩ := hts
    obtain _ | ⟨hu, ⟨⟩⟩ := hus
    exact readsChain_withMember (ht.trans hdot) (hu.kind ▸ hname)
  | _, _, .create hnew hfirst further, bound, ts, hts, hlen => by
    -- The path is read by a loop of its own, with the same bound.
    obtain ⟨t, _, rfl, ht, hus⟩ := hts
    obtain _ | ⟨hu, hus⟩ := hus
    rw [List.length_cons, List.length_cons] at hlen
    refine ⟨?_, nofun⟩
    refine reads_create (ht.trans hnew) (hu.kind.trans hfirst) fun {_} hrest => ?_
    exact further.reads hus (by omega) hrest
  | _, _, .not hnot operand, bound, ts, hts, hlen => by
    obtain ⟨t, us, rfl, ht, hus⟩ := hts
    have hus := Piece.GiveAll.of_forall₂ hus
    have some_token : 0 < us.length := hus.length ▸ List.length_pos_iff.mpr operand.starts.ne_nil
    rw [List.length_cons] at hlen
    obtain ⟨bound, rfl⟩ : ∃ b, bound = b + 1 := ⟨bound - 1, by omega⟩
    have read := (operand.reads bound hus (by omega)).1
    exact ⟨read.not (by omega) (ht.trans hnot), nofun⟩
  | _, _, .neg hneg operand unsigned, bound, ts, hts, hlen => by
    obtain ⟨t, us, rfl, ht, hus⟩ := hts
    have hus := Piece.GiveAll.of_forall₂ hus
    obtain ⟨u, us, rfl, hu, further⟩ := id hus
    rw [List.length_cons, List.length_cons] at hlen
    obtain ⟨bound, rfl⟩ : ∃ b, bound = b + 1 := ⟨bound - 1, by omega⟩
    have read := (operand.reads bound hus (by rw [List.length_cons]; omega)).1
    exact ⟨read.neg (by omega) (ht.trans hneg) fun x hx => unsigned x (hu.symm.trans hx), nofun⟩
  | _, _, .member hobject hdot touching hname, bound, ts, hts, hlen => by
    refine ReadsChain.both ?_ hts (hobject.starts.append _)
    obtain ⟨ts₁, ts₂, rfl, h₁, -, h₂⟩ := hobject.starts.giveAll hts
    obtain _ | ⟨ht, h₂⟩ := h₂
    obtain _ | ⟨hu, ⟨⟩⟩ := h₂
    rw [List.length_append] at hlen
    have chain := (hobject.reads bound h₁ (by omega)).2 rfl
    refine chain.member ?_ (ht.kind.trans hdot) (ht.touching touching) (hu.kind ▸ hname)
    simp only [List.length_cons, List.length_nil] at hlen
    omega
  | _, _, .apply hcallee hl hr touching, bound, ts, hts, hlen => by
    refine ReadsChain.both ?_ hts (hcallee.starts.append _)
    obtain ⟨ts₁, ts₂, rfl, h₁, -, h₂⟩ := hcallee.starts.giveAll hts
    obtain _ | ⟨ht, h₂⟩ := h₂
    obtain _ | ⟨hu, ⟨⟩⟩ := h₂
    rw [List.length_append] at hlen
    have chain := (hcallee.reads bound h₁ (by omega)).2 rfl
    refine chain.apply ?_ (ht.kind.trans hl) (hu.kind.trans hr) (hu.touching touching)
    simp only [List.length_cons, List.length_nil] at hlen
    omega
  | _, _, .call hcallee hl hargs hr, bound, ts, hts, hlen => by
    refine ReadsChain.both ?_ hts (hcallee.starts.append _)
    obtain ⟨ts₁, ts₂, rfl, h₁, -, h₂⟩ := hcallee.starts.giveAll hts
    obtain ⟨tl, us, tr, rfl, htl, htr, hus⟩ := giveAll_parens hl hr (.of_forall₂ h₂)
    rw [List.length_append, List.length_cons, List.length_append] at hlen
    have chain := (hcallee.reads bound h₁ (by omega)).2 rfl
    have read := (hargs.reads bound (.of_forall₂ hus) (by omega)).readsArgs
    obtain ⟨q, qs, rfl, starts⟩ := hargs.starts
    obtain _ | ⟨hu, hus⟩ := hus
    refine chain.call ?_ htl read (hu.kind ▸ starts.rparen) htr
    rw [List.length_cons] at hlen
    omega
  | _, _, @Bare.binary _ op _ _ _ _ _ hleft hop hright, bound, ts, hts, hlen => by
    obtain ⟨ts₁, ts₂, rfl, h₁, some_token, h₂⟩ := hleft.starts.giveAll hts
    obtain _ | ⟨ht, hus⟩ := h₂
    rw [List.length_append, List.length_cons] at hlen
    obtain ⟨bound, rfl⟩ : ∃ b, bound = b + 1 := ⟨bound - 1, by omega⟩
    have left := (hleft.reads (bound + 1) h₁ (by omega)).1
    have right := (hright.reads bound (.of_forall₂ hus) (by omega)).1
    obtain ⟨q, qs, rfl, starts⟩ := hright.starts
    obtain _ | ⟨hu, hus⟩ := hus
    rw [List.length_cons] at hlen
    refine ⟨left.binary (ht.kind ▸ hop) right (by omega) fun comparison => ?_, ?_⟩
    -- Behind a comparison a bare `not` would be read at its own level, but an operand of the next
    -- level never starts with one.
    · rw [hu.kind]
      refine starts.not ?_
      cases op <;> first | decide | cases comparison
    · intro h
      cases op <;> cases h

theorem WrittenAt.reads : ∀ {level : Nat} {e : Expr} {ps : List Piece}, WrittenAt level e ps →
    ∀ (bound : Nat) {ts : List Token}, Piece.GiveAll ps ts → ts.length ≤ bound + 1 →
      Reads bound level e ts ∧ (level = chainStrength → ReadsChain bound e ts)
  | level, e, _, .bare hlevel h, bound, ts, hts, hlen => by
    obtain ⟨read, chain⟩ := h.reads bound hts hlen
    refine ⟨read.mono hlevel, fun hchain => chain (Nat.le_antisymm e.strength_le ?_)⟩
    exact hchain ▸ hlevel
  | _, _, _, .parens hl h hr, bound, ts, hts, hlen => by
    refine ReadsChain.both ?_ hts (.of_kind hl nofun nofun nofun nofun _)
    obtain ⟨tl, us, tr, rfl, htl, htr, hus⟩ := giveAll_parens hl hr hts
    rw [List.length_cons, List.length_append, List.length_singleton] at hlen
    obtain ⟨bound, rfl⟩ : ∃ b, bound = b + 1 := ⟨bound - 1, by omega⟩
    have read := (h.reads bound (.of_forall₂ hus) (by omega)).1
    exact readsChain_of_parens htl htr read (by omega)

theorem ArgWritten.reads : ∀ {arg : Arg} {ps : List Piece}, ArgWritten arg ps →
    ∀ (bound : Nat) {ts : List Token}, Piece.GiveAll ps ts → ts.length ≤ bound →
      ReadsArg bound arg ts
  | _, _, .byReference h, bound, ts, hts, hlen => by
    have some_token : 0 < ts.length := hts.length ▸ List.length_pos_iff.mpr h.starts.ne_nil
    obtain ⟨bound, rfl⟩ : ∃ b, bound = b + 1 := ⟨bound - 1, by omega⟩
    have read := (h.reads bound hts (by omega)).1
    exact readsArg_of_bare h hts read hlen
  | _, _, .byValue (e := e) hl h hr, bound, ts, hts, hlen => by
    -- The parentheses are read as a chain; that they are the whole argument is seen behind it.
    have whole {b : Nat} (hchain : ReadsChain b e ts) : Reads b 0 e ts :=
      hchain.reads hts (.of_kind hl nofun nofun nofun nofun _)
    obtain ⟨tl, us, tr, rfl, htl, htr, hus⟩ := giveAll_parens hl hr hts
    rw [List.length_cons, List.length_append, List.length_singleton] at hlen
    obtain ⟨bound, rfl⟩ : ∃ b, bound = b + 2 := ⟨bound - 2, by omega⟩
    have read := (h.reads bound (.of_forall₂ hus) (by omega)).1
    have chain := readsChain_of_parens htl htr read (by omega)
    have paired := (Piece.GiveAll.of_forall₂ hus).kinds ▸ h.paired
    exact readsArg_of_parens htl htr paired (whole chain) (by omega)

theorem ArgsWritten.reads : ∀ {args : List Arg} {ps : List Piece}, ArgsWritten args ps →
    ∀ (bound : Nat) {ts : List Token}, Piece.GiveAll ps ts → ts.length ≤ bound →
      ReadsSeparated bound args ts
  | _, _, .one h, bound, ts, hts, hlen => (h.reads bound hts hlen).one
  | _, _, .cons h hcomma further, bound, ts, hts, hlen => by
    obtain ⟨ts₁, ts₂, rfl, h₁, some_token, h₂⟩ := h.starts.giveAll hts
    obtain _ | ⟨ht, hus⟩ := h₂
    rw [List.length_append, List.length_cons] at hlen
    have first := h.reads bound h₁ (by omega)
    have rest := further.reads bound (.of_forall₂ hus) (by omega)
    exact first.cons some_token (ht.kind.trans hcomma) rest

end

/-- **What is written is read back**: a source of one writing and its end is that expression. -/
theorem WrittenAt.ofTokens? {ps : List Piece} (h : WrittenAt 0 e ps) (hts : Piece.GiveAll ps ts)
    (ht : t.kind = .endOfPage) :
    ∃ e', Expr.ofTokens? (ts ++ [t]) = .ok e' ∧ e'.unplaced = e.unplaced := by
  have behind : Follows 0 [t] := by
    obtain ⟨kind, span, spaced, adjacent⟩ := t
    subst ht
    exact ⟨nofun, nofun, nofun⟩
  have read := (h.reads ts.length hts (Nat.le_succ _)).1
  obtain ⟨e', q, he, hparse⟩ :=
    read.parse (p := .origin) (Nat.le_refl 0) (Nat.le_succ _) behind
  refine ⟨e', ?_, he⟩
  have whole : Expr.parse ⟨ts ++ [t], .origin⟩ = .ok (e', ⟨[t], q⟩) := by
    have count : (ts ++ [t]).length = ts.length + 1 := List.length_append
    rw [← hparse, ← count]
    rfl
  change (Bind.bind ((Expr.parse >>= fun e => kind >>= fun k => if k.isEnd then pure e else _ :
    Parse Expr) ⟨ts ++ [t], .origin⟩) fun r => pure r.1) = _
  rw [bind_of_ok whole]
  change (Bind.bind ((if t.kind.isEnd then pure e' else _ : Parse Expr) ⟨[t], q⟩) fun r =>
    pure r.1) = _
  rw [ht]
  rfl

end Expr

end PageScript
