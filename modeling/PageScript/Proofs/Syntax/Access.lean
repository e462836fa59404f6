import PageScript.Proofs.Machine.Invoking
import PageScript.Proofs.Syntax.Calls
import PageScript.Proofs.Syntax.Grammar.Cutting

/-!
# Proofs/Syntax/Access — the tokens of what denotes a place

Of the tokens of an argument the reader keeps a tree, in which parentheses and plus signs are no
nodes, and whether they are one pair of parentheses.  Here both are told from the tokens alone: the
mark stands for an expression in one pair of parentheses and nothing else
(`Grammar.Expression.isParenthesized_iff`), and an unmarked argument is a place if it is an access
chain, or plus signs in front of what denotes a place (`Grammar.Expression.isShared_iff`).
-/

namespace PageScript

open Parse Grammar
open Token (next nextAdjacent)

namespace Token

/-- The tokens are one expression and nothing else. -/
def IsExpression (ts : List Token) : Prop := ReadsAll Expr.parse ts fun _ => True

/-- The tokens are one pair of parentheses with tokens of a kind in it. -/
def InParens (inside : List Token → Prop) (ts : List Token) : Prop :=
  ∃ l inner r, ts = l :: (inner ++ [r]) ∧ l.kind = .symbol .lparen ∧ r.kind = .symbol .rparen ∧
    inside inner

/-- The tokens are an access chain: a name or a member of the `with` object with links behind it, or an
expression in parentheses with one link at least. -/
inductive IsAccess : List Token → Prop
  | chain {ts us : List Token} {head e : Expr} (h : Head ts head us) (links : Linked head us e []) :
      IsAccess ts
  | parens {l r : Token} {inner us : List Token} {e chain : Expr} (hl : l.kind = .symbol .lparen)
      (h : Expression 0 inner e []) (hr : r.kind = .symbol .rparen) (links : Linked e us chain [])
      (some_link : us ≠ []) : IsAccess (l :: (inner ++ r :: us))

/-- The tokens are an access chain, in parentheses or behind plus signs or not. -/
inductive Denotes : List Token → Prop
  | access {ts : List Token} (h : IsAccess ts) : Denotes ts
  | plus {t : Token} {ts : List Token} (ht : t.kind = .symbol .plus) (h : Denotes ts) :
      Denotes (t :: ts)
  | parens {l r : Token} {ts : List Token} (hl : l.kind = .symbol .lparen) (h : Denotes ts)
      (hr : r.kind = .symbol .rparen) : Denotes (l :: (ts ++ [r]))

/-- The tokens are a plus sign in front of what denotes a place. -/
def IsPlusAccess (ts : List Token) : Prop :=
  ∃ t us, ts = t :: us ∧ t.kind = .symbol .plus ∧ Denotes us

/-- What an access chain starts with. -/
theorem IsAccess.next_eq {ts : List Token} (h : IsAccess ts) :
    (∃ name, next ts = .ident name) ∨ next ts = .symbol .dot ∨ next ts = .symbol .lparen := by
  cases h with
  | chain h =>
    cases h with
    | var ht => exact .inl ⟨_, ht⟩
    | withMember ht => exact .inr (.inl ht)
  | parens hl => exact .inr (.inr hl)

/-- What denotes a place starts with no number, so a plus in front of it is an operator. -/
theorem Denotes.next_ne_number {ts : List Token} (h : Denotes ts) (x : Float) :
    next ts ≠ .number x := by
  cases h with
  | access h =>
    obtain ⟨name, h⟩ | h | h := h.next_eq <;> exact fun number => nomatch h.symm.trans number
  | plus ht | parens ht => exact fun number => nomatch ht.symm.trans number

end Token

namespace Grammar

variable {level : Nat} {ts us rest : List Token} {e e' chain left : Expr}

/-! ## Chains -/

theorem Linked.links (h : Linked chain ts e []) : Links chain ts e [] := by
  generalize hrest : ([] : List Token) = rest at h
  induction h with
  | nil => exact hrest ▸ .stop nofun nofun
  | cons h _ ih => exact .link h (ih hrest)

theorem Link.isPlace (h : Link chain ts e rest) : e.isPlace = true := by
  cases h <;> rfl

theorem Linked.isPlace (h : Linked chain ts e rest) (place : chain.isPlace = true) :
    e.isPlace = true := by
  induction h with
  | nil => exact place
  | cons h _ ih => exact ih h.isPlace

/-- Whatever it starts with, a chain with a link is a place. -/
theorem Linked.isPlace_of_ne (h : Linked chain ts e rest) (some_link : ts ≠ rest) :
    e.isPlace = true := by
  cases h with
  | nil => exact absurd rfl some_link
  | cons h further => exact further.isPlace h.isPlace

theorem Head.isPlace (h : Head ts e rest) : e.isPlace = true := by
  cases h <;> rfl

/-! ## What is an expression on its own -/

theorem Operand.expression (h : Operand level ts e []) : Expression level ts e [] :=
  .intro h (.stop nofun)

/-- Tokens are one expression at most. -/
theorem Expression.unique (h : Expression 0 ts e rest) (h' : Expression 0 ts e' rest) : e = e' := by
  obtain ⟨e, q, rfl, run⟩ := h.parse .origin
  obtain ⟨e', q', rfl, run'⟩ := h'.parse .origin
  cases run.symm.trans run'
  rfl

theorem isExpression_iff : Token.IsExpression ts ↔ ∃ e, Expression 0 ts e [] := by
  constructor
  · rintro ⟨e, q, -, run⟩
    exact ⟨e.unplaced, expression_of_parse (Nat.le_refl _) run⟩
  · rintro ⟨e, h⟩
    obtain ⟨e', q, -, run⟩ := h.parse .origin
    exact ⟨e', q, trivial, run⟩

/-- In front of a closing parenthesis it stays what it is. -/
theorem Expression.closed {r : Token} (h : Expression level ts e []) (hr : r.kind = .symbol .rparen) :
    Expression level (ts ++ r :: us) e (r :: us) := by
  have stops : (next (r :: us)).StopsList := by
    rw [Token.next_cons, hr]
    exact .rparen
  exact h.append fun _ => stops

/-- The parenthesis in front of it is closed behind it. -/
theorem Expression.afterClosing?_parens {l r : Token} (h : Expression level ts e (r :: us))
    (hl : l.kind = .symbol .lparen) (hr : r.kind = .symbol .rparen) :
    Cursor.afterClosing? 0 (l :: ts) = some us := by
  rw [Cursor.afterClosing?, hl]
  exact (h.takes.afterClosing? 0).trans (by rw [Cursor.afterClosing?, hr])

end Grammar

/-! ## What denotes a place is one -/

namespace Token

variable {ts : List Token}

/-- An access chain is an operand of every level, and a place. -/
theorem IsAccess.operand (h : IsAccess ts) (level : Nat) :
    ∃ e, e.isPlace = true ∧ Operand level ts e [] := by
  cases h with
  | chain h links => exact ⟨_, links.isPlace h.isPlace, .chain h links.links⟩
  | parens hl h hr links some_link =>
    exact ⟨_, links.isPlace_of_ne some_link, .parens hl (h.closed hr) hr links.links⟩

/-- Plus signs and parentheses leave no trace in the tree. -/
theorem Denotes.operand (h : Denotes ts) :
    ∀ level, ∃ e, e.isPlace = true ∧ Operand level ts e [] := by
  induction h with
  | access h => exact h.operand
  | plus ht h ih =>
    intro level
    obtain ⟨e, place, operand⟩ := ih (signedLevel level)
    exact ⟨e, place, .plus ht h.next_ne_number operand.expression⟩
  | parens hl h hr ih =>
    intro level
    obtain ⟨e, place, operand⟩ := ih 0
    exact ⟨e, place, .parens hl (operand.expression.closed hr) hr (.stop nofun nofun)⟩

/-- An access chain that starts with a parenthesis goes on behind the one that closes it. -/
theorem IsAccess.isParenthesized_eq (h : IsAccess ts) : isParenthesized ts [] = false := by
  rw [isParenthesized, Cursor.isParenthesized, Cursor.kind_mk_eq]
  cases h with
  | chain h =>
    cases h with
    | var ht | withMember ht =>
      rw [next_cons, ht]
      rfl
  | parens hl h hr links some_link =>
    rw [(h.closed hr).afterClosing?_parens hl hr]
    refine Bool.and_eq_false_iff.mpr (.inr (beq_eq_false_iff_ne.mpr fun none => some_link ?_))
    exact List.eq_nil_of_length_eq_zero none

theorem IsPlusAccess.isParenthesized_eq (h : IsPlusAccess ts) : isParenthesized ts [] = false := by
  obtain ⟨t, us, rfl, ht, -⟩ := h
  rw [isParenthesized, Cursor.isParenthesized, Cursor.kind_mk_eq, next_cons, ht]
  rfl

end Token

/-! ## What is a place denotes one -/

namespace Grammar

variable {level : Nat} {ts us rest : List Token} {e left : Expr}

/-- An operator makes a value. -/
theorem Further.eq_of_isPlace : ∀ {left : Expr} {ts : List Token} {e : Expr} {rest : List Token},
    Further level left ts e rest → e.isPlace = true → left = e ∧ ts = rest
  | _, _, _, _, .stop _, _ => ⟨rfl, rfl⟩
  | _, _, _, _, .cons _ _ _ further, place => by
    obtain ⟨rfl, -⟩ := further.eq_of_isPlace place
    nomatch place

theorem Links.eq_of_nil (h : Links left [] e rest) : left = e := by
  cases h with
  | stop => rfl
  | link h => nomatch h

/-- The tokens are an access chain, bare, behind a plus sign or in parentheses. -/
inductive IsPlace (ts : List Token) : Prop
  | access (h : Token.IsAccess ts)
  | plus (h : Token.IsPlusAccess ts)
  | parens (h : Token.InParens Token.Denotes ts)

theorem IsPlace.denotes (h : IsPlace ts) : Token.Denotes ts := by
  cases h with
  | access h => exact .access h
  | plus h =>
    obtain ⟨t, us, rfl, ht, h⟩ := h
    exact .plus ht h
  | parens h =>
    obtain ⟨l, inner, r, rfl, hl, hr, h⟩ := h
    exact .parens hl h hr

mutual

theorem Expression.isPlace : ∀ {level : Nat} {ts : List Token} {e : Expr} {rest : List Token},
    Expression level ts e rest → e.isPlace = true → ∃ taken, ts = taken ++ rest ∧ IsPlace taken
  | _, _, _, _, .intro h further, place => by
    obtain ⟨same, left⟩ := further.eq_of_isPlace place
    obtain ⟨taken, hts, denoted⟩ := h.isPlace (same ▸ place)
    exact ⟨taken, left ▸ hts, denoted⟩

theorem Operand.isPlace : ∀ {level : Nat} {ts : List Token} {e : Expr} {rest : List Token},
    Operand level ts e rest → e.isPlace = true → ∃ taken, ts = taken ++ rest ∧ IsPlace taken
  | _, _, _, _, .plus ht _ h, place => by
    obtain ⟨taken, rfl, denoted⟩ := h.isPlace place
    exact ⟨_ :: taken, rfl, .plus ⟨_, taken, rfl, ht, denoted.denotes⟩⟩
  | _, _, _, _, .not _ _ _, place | _, _, _, _, .neg _ _ _, place | _, _, _, _, .literal _, place
  | _, _, _, _, .negative _ _, place | _, _, _, _, .positive _ _, place
  | _, _, _, _, .create _ _ _, place => nomatch place
  | _, _, _, _, .chain h links, _ => by
    obtain ⟨us, rfl, links'⟩ := links.cut (List.nil_append _).symm
    obtain ⟨taken, rfl, h'⟩ := h.cut rfl
    exact ⟨taken, rfl, .access (.chain h' links'.linked.1)⟩
  | _, _, _, _, @Operand.parens _ t ts inner r us chain rest ht h hr links, place => by
    obtain ⟨us', behind, links'⟩ := links.cut (List.nil_append _).symm
    by_cases bare : us' = []
    · -- Without a link the value is what stands in the parentheses.
      have same : inner = chain := (bare ▸ links').eq_of_nil
      have place : inner.isPlace = true := same ▸ place
      obtain ⟨taken, hts, denoted⟩ := h.isPlace place
      refine ⟨t :: (taken ++ [r]), ?_, .parens ⟨t, taken, r, rfl, ht, hr, denoted.denotes⟩⟩
      rw [hts, behind, bare, List.nil_append, List.cons_append, List.append_assoc,
        List.singleton_append]
    · obtain ⟨taken, hts, alone⟩ := h.alone
      refine ⟨t :: (taken ++ r :: us'), ?_, .access (.parens ht alone hr links'.linked.1 bare)⟩
      rw [hts, behind, List.cons_append, List.append_assoc, List.cons_append]

end

/-! ## The mark and the place of an argument -/

/-- **Marked** are the expressions in one pair of parentheses. -/
theorem Expression.isParenthesized_iff (h : Expression 0 ts e []) :
    isParenthesized ts [] = true ↔ Token.InParens Token.IsExpression ts := by
  constructor
  · intro marked
    obtain ⟨l, us, r, rfl, hl, inside, hr⟩ := h.inside marked
    obtain ⟨inner, rfl, alone⟩ := inside.alone
    exact ⟨l, inner, r, rfl, hl, hr, isExpression_iff.mpr ⟨e, alone⟩⟩
  · rintro ⟨l, inner, r, rfl, hl, hr, inside⟩
    obtain ⟨e', alone⟩ := isExpression_iff.mp inside
    rw [isParenthesized, Cursor.isParenthesized, Cursor.kind_mk_eq, Token.next_cons, hl,
      (alone.closed hr).afterClosing?_parens hl hr]
    rfl

/-- **Shared**, if the parameter asks for it, are access chains, and plus signs in front of what denotes
a place. -/
theorem Expression.isShared_iff (h : Expression 0 ts e []) :
    (isParenthesized ts [] = false ∧ e.isPlace = true) ↔
      Token.IsAccess ts ∨ Token.IsPlusAccess ts := by
  constructor
  · rintro ⟨unmarked, place⟩
    obtain ⟨taken, hts, denoted⟩ := h.isPlace place
    obtain rfl : ts = taken := hts.trans (List.append_nil taken)
    cases denoted with
    | access h => exact .inl h
    | plus h => exact .inr h
    | parens inside =>
      obtain ⟨l, inner, r, hts, hl, hr, denoted⟩ := inside
      obtain ⟨e', -, operand⟩ := denoted.operand 0
      have marked := h.isParenthesized_iff.mpr
        ⟨l, inner, r, hts, hl, hr, isExpression_iff.mpr ⟨e', operand.expression⟩⟩
      exact nomatch unmarked.symm.trans marked
  · rintro (h' | h')
    · obtain ⟨e', place, operand⟩ := h'.operand 0
      exact ⟨h'.isParenthesized_eq, h.unique operand.expression ▸ place⟩
    · obtain ⟨e', place, operand⟩ := (IsPlace.plus h').denotes.operand 0
      exact ⟨h'.isParenthesized_eq, h.unique operand.expression ▸ place⟩

end Grammar

/-! ## Arguments -/

namespace Arg

open Evaluator (SharesPlace)

variable {arg : Arg} {ts : List Token} {p : Span} {d : Cursor}

/-- The tokens of an argument: what they say about it, and about how it is passed. -/
structure WrittenAs (arg : Arg) (ts : List Token) : Prop where
  /-- They are its expression and nothing else. -/
  read : ReadsAll Expr.parse ts arg.value.Same
  byValue_iff : arg.byValue = true ↔ Token.InParens Token.IsExpression ts
  isShared_iff : arg.byValue = false ∧ arg.value.isPlace = true ↔
    Token.IsAccess ts ∨ Token.IsPlusAccess ts
  shared {ev : Evaluator} {frame : FrameId} {param : Param} : param.byRef = true →
    Token.IsAccess ts ∨ Token.IsPlusAccess ts →
      ev.passed frame param arg = ev.place frame arg.value
  copied {ev : Evaluator} {frame : FrameId} {param : Param} :
    ¬(param.byRef = true ∧ (Token.IsAccess ts ∨ Token.IsPlusAccess ts)) →
      ev.passed frame param arg = (ev.operandValue frame arg.value >>= Run.newCell)

/-- What the reader of arguments takes says all that it keeps. -/
theorem writtenAs_of_argument (h : argument Expr.parse ⟨ts, p⟩ = .ok (arg, d)) :
    ∃ taken, ts = taken ++ d.rest ∧ arg.WrittenAs taken := by
  obtain ⟨e, parsed, rfl⟩ := exists_of_argument h
  obtain ⟨taken, rfl, alone⟩ := (expression_of_parse (Nat.le_refl _) parsed).alone
  -- What stands behind the argument does not change whether it is one pair of parentheses.
  have mark : isParenthesized (taken ++ d.rest) d.rest = isParenthesized taken [] :=
    isParenthesized_append alone.takes d.rest
  have shared : isParenthesized (taken ++ d.rest) d.rest = false ∧ e.isPlace = true ↔
      Token.IsAccess taken ∨ Token.IsPlusAccess taken := by
    rw [mark, ← alone.isShared_iff, Expr.isPlace_unplaced]
  refine ⟨taken, rfl, ?_, mark ▸ alone.isParenthesized_iff, shared, ?_, ?_⟩
  · obtain ⟨e', q, same, run⟩ := alone.parse .origin
    exact ⟨e', q, same, run⟩
  · exact fun byRef access => Evaluator.passed_of_shares ⟨byRef, shared.mpr access⟩
  · exact fun other => Evaluator.passed_of_copies fun shares =>
      other ⟨shares.1, shared.mp shares.2⟩

end Arg

end PageScript
