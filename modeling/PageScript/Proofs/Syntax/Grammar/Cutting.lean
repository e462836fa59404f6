import PageScript.Proofs.Syntax.Grammar.Basic

/-!
# Proofs/Syntax/Grammar/Cutting — the same tokens with none behind them

`Expression.append` puts tokens behind an expression.  Here they are taken away again: of what is left
behind an expression a part may be cut off, and what was taken in front of it stays the same expression
(`Grammar.Expression.cut`).  With all of it cut off, the tokens that were taken are an expression on
their own.  A part of an expression in front of a token that cannot follow any is cut there alike.
-/

namespace PageScript.Grammar

open Token (next nextAdjacent)

variable {vs rest : List Token}

/-- A kind other than the end of the page is not next in a front of tokens either. -/
theorem next_ne_of_append {kind : TokenKind} (h : next (vs ++ rest) ≠ kind)
    (inside : kind.isEnd = false) : next vs ≠ kind := by
  cases vs with
  | nil =>
    rintro rfl
    cases inside
  | cons => exact h

theorem cons_eq_append {t : Token} {us : List Token} (h : us = vs ++ rest) :
    t :: us = (t :: vs) ++ rest :=
  congrArg (t :: ·) h

theorem Path.cut : ∀ {ts : List Token} {names : List Name} {us : List Token}, Path ts names us →
    ∀ {vs rest : List Token}, us = vs ++ rest → ∃ ts', ts = ts' ++ rest ∧ Path ts' names vs
  | _, _, _, .stop other, vs, rest, same => by
    subst same
    exact ⟨vs, rfl, .stop (next_ne_of_append other rfl)⟩
  | _, _, _, .cons ht hu further, _, _, same => by
    obtain ⟨ts', rfl, further'⟩ := further.cut same
    exact ⟨_ :: _ :: ts', rfl, .cons ht hu further'⟩

theorem Head.cut {ts us : List Token} {e : Expr} (h : Head ts e us) (same : us = vs ++ rest) :
    ∃ ts', ts = ts' ++ rest ∧ Head ts' e vs := by
  subst same
  cases h with
  | var ht => exact ⟨_ :: vs, rfl, .var ht⟩
  | withMember ht hu => exact ⟨_ :: _ :: vs, rfl, .withMember ht hu⟩

mutual

theorem Expression.cut : ∀ {level : Nat} {ts : List Token} {e : Expr} {us : List Token},
    Expression level ts e us → ∀ {vs rest : List Token}, us = vs ++ rest →
      ∃ ts', ts = ts' ++ rest ∧ Expression level ts' e vs
  | _, _, _, _, .intro h further, _, _, same => by
    obtain ⟨us', behind, further'⟩ := further.cut same
    obtain ⟨ts', rfl, h'⟩ := h.cut behind
    exact ⟨ts', rfl, .intro h' further'⟩

theorem Operand.cut : ∀ {level : Nat} {ts : List Token} {e : Expr} {us : List Token},
    Operand level ts e us → ∀ {vs rest : List Token}, us = vs ++ rest →
      ∃ ts', ts = ts' ++ rest ∧ Operand level ts' e vs
  | _, _, _, _, .not ht hlevel h, _, _, same => by
    obtain ⟨ts', rfl, h'⟩ := h.cut same
    exact ⟨_ :: ts', rfl, .not ht hlevel h'⟩
  | _, _, _, _, .neg ht unsigned h, _, rest, same => by
    obtain ⟨ts', rfl, h'⟩ := h.cut same
    exact ⟨_ :: ts', rfl, .neg ht (h'.takes.next_append rest ▸ unsigned) h'⟩
  | _, _, _, _, .plus ht unsigned h, _, rest, same => by
    obtain ⟨ts', rfl, h'⟩ := h.cut same
    exact ⟨_ :: ts', rfl, .plus ht (h'.takes.next_append rest ▸ unsigned) h'⟩
  | _, _, _, _, .literal ht, vs, _, rfl => ⟨_ :: vs, rfl, .literal ht⟩
  | _, _, _, _, .negative ht hu, vs, _, rfl => ⟨_ :: _ :: vs, rfl, .negative ht hu⟩
  | _, _, _, _, .positive ht hu, vs, _, rfl => ⟨_ :: _ :: vs, rfl, .positive ht hu⟩
  | _, _, _, _, .create ht hu h, _, _, same => by
    obtain ⟨ts', rfl, h'⟩ := h.cut same
    exact ⟨_ :: _ :: ts', rfl, .create ht hu h'⟩
  | _, _, _, _, .parens ht h hr links, _, _, same => by
    obtain ⟨us', behind, links'⟩ := links.cut same
    obtain ⟨ts', rfl, h'⟩ := h.cut (cons_eq_append behind)
    exact ⟨_ :: ts', rfl, .parens ht h' hr links'⟩
  | _, _, _, _, .chain h links, _, _, same => by
    obtain ⟨us', behind, links'⟩ := links.cut same
    obtain ⟨ts', rfl, h'⟩ := h.cut behind
    exact ⟨ts', rfl, .chain h' links'⟩

theorem Links.cut : ∀ {chain : Expr} {ts : List Token} {e : Expr} {us : List Token},
    Links chain ts e us → ∀ {vs rest : List Token}, us = vs ++ rest →
      ∃ ts', ts = ts' ++ rest ∧ Links chain ts' e vs
  | _, _, _, _, .stop paren dot, vs, rest, same => by
    subst same
    refine ⟨vs, rfl, .stop (next_ne_of_append paren rfl) ?_⟩
    cases vs with
    | nil =>
      intro dot
      cases dot
    | cons => exact dot
  | _, _, _, _, .link h further, _, _, same => by
    obtain ⟨us', behind, further'⟩ := further.cut same
    obtain ⟨ts', rfl, h'⟩ := h.cut behind
    exact ⟨ts', rfl, .link h' further'⟩

theorem Link.cut : ∀ {chain : Expr} {ts : List Token} {e : Expr} {us : List Token},
    Link chain ts e us → ∀ {vs rest : List Token}, us = vs ++ rest →
      ∃ ts', ts = ts' ++ rest ∧ Link chain ts' e vs
  | _, _, _, _, .member ht touching hu, vs, _, rfl => ⟨_ :: _ :: vs, rfl, .member ht touching hu⟩
  | _, _, _, _, .apply ht hu touching, vs, _, rfl => ⟨_ :: _ :: vs, rfl, .apply ht hu touching⟩
  | _, _, _, _, .call ht hargs hr, _, _, same => by
    obtain ⟨ts', rfl, hargs'⟩ := hargs.cut (cons_eq_append same)
    exact ⟨_ :: ts', rfl, .call ht hargs' hr⟩

theorem Arguments.cut : ∀ {ts : List Token} {args : List Arg} {us : List Token},
    Arguments ts args us → ∀ {vs rest : List Token}, us = vs ++ rest →
      ∃ ts', ts = ts' ++ rest ∧ Arguments ts' args vs
  | _, _, _, .one h last, vs, rest, same => by
    obtain ⟨ts', rfl, h'⟩ := h.cut same
    subst same
    rw [isParenthesized_append h'.takes rest]
    exact ⟨ts', rfl, .one h' (next_ne_of_append last rfl)⟩
  | _, _, _, .cons h ht further, _, rest, same => by
    obtain ⟨us', behind, further'⟩ := further.cut same
    obtain ⟨ts', rfl, h'⟩ := h.cut (cons_eq_append behind)
    rw [cons_eq_append behind, isParenthesized_append h'.takes rest]
    exact ⟨ts', rfl, .cons h' ht further'⟩

theorem Further.cut : ∀ {level : Nat} {left : Expr} {ts : List Token} {e : Expr} {us : List Token},
    Further level left ts e us → ∀ {vs rest : List Token}, us = vs ++ rest →
      ∃ ts', ts = ts' ++ rest ∧ Further level left ts' e vs
  | _, _, _, _, _, .stop loose, vs, rest, same => by
    subst same
    refine ⟨vs, rfl, .stop ?_⟩
    cases vs with
    | nil =>
      intro _ found
      cases found
    | cons => exact loose
  | _, _, _, _, _, .cons ht hlevel h further, _, rest, same => by
    obtain ⟨us', behind, further'⟩ := further.cut same
    obtain ⟨ts', rfl, h'⟩ := h.cut behind
    exact ⟨_ :: ts', rfl, .cons ht hlevel (h'.takes.next_append rest ▸ h') further'⟩

end

/-- The tokens that were taken are an expression on their own. -/
theorem Expression.alone {level : Nat} {ts : List Token} {e : Expr} (h : Expression level ts e rest) :
    ∃ taken, ts = taken ++ rest ∧ Expression level taken e [] :=
  h.cut (List.nil_append rest).symm

end PageScript.Grammar
