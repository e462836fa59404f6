import PageScript.Proofs.Syntax.Access
import PageScript.Proofs.Syntax.Ending
import PageScript.Proofs.Syntax.Tree.Spans

/-!
# Proofs/Syntax/Origins/Expressions — where the arguments in an expression come from

An expression is traced to the tokens of a page (`Expr.Traced`) if the arguments of every call in it
were read from tokens of the page in parentheses, one by one with commas in between
(`Arg.AreWritten`), at the places that the tree has them from.  What is read as an expression is traced
(`Parse.traces_parse`), and of a chain it is known besides where its last parentheses stand
(`Parse.IsChain`).
-/

namespace PageScript

open Parse Grammar
open Token (next nextAdjacent)

/-! ## Arguments in a row -/

/-- An argument was read from tokens in front of others; by themselves they say how it is passed. -/
structure Arg.IsWritten (taken rest : List Token) (arg : Arg) : Prop where
  read : ∃ p q, argument Expr.parse ⟨taken ++ rest, p⟩ = .ok (arg, ⟨rest, q⟩)
  writtenAs : arg.WrittenAs taken

/-- Arguments were read one behind the other, with commas in between. -/
inductive Arg.AreWritten : List Token → List Arg → List Token → Prop
  | one {taken rest : List Token} {arg : Arg} (h : arg.IsWritten taken rest)
      (last : next rest ≠ .symbol .comma) : AreWritten (taken ++ rest) [arg] rest
  | cons {taken us rest : List Token} {t : Token} {arg : Arg} {args : List Arg}
      (h : arg.IsWritten taken (t :: us)) (ht : t.kind = .symbol .comma)
      (further : AreWritten us args rest) : AreWritten (taken ++ t :: us) (arg :: args) rest

/-- Arguments were read from tokens of a page, in the parentheses that start somewhere. -/
inductive Parse.InList (tokens : List Token) : (before : List Token) → List Arg → (behind : List Token) →
    Prop
  | empty {l r : Token} {rest : List Token} (suffix : l :: r :: rest <:+ tokens)
      (hl : l.kind = .symbol .lparen) (hr : r.kind = .symbol .rparen) :
      InList tokens (l :: r :: rest) [] rest
  | args {l r : Token} {ts rest : List Token} {args : List Arg} (suffix : l :: ts <:+ tokens)
      (hl : l.kind = .symbol .lparen) (h : Arg.AreWritten ts args (r :: rest))
      (hr : r.kind = .symbol .rparen) : InList tokens (l :: ts) args rest

theorem Parse.InList.suffix {tokens before behind : List Token} {args : List Arg}
    (h : InList tokens before args behind) : before <:+ tokens := by
  cases h with
  | empty suffix | args suffix => exact suffix

theorem Arg.exists_isWritten {arg : Arg} {ts : List Token} {p : Span} {d : Cursor}
    (h : argument Expr.parse ⟨ts, p⟩ = .ok (arg, d)) :
    ∃ taken, ts = taken ++ d.rest ∧ arg.IsWritten taken d.rest := by
  obtain ⟨taken, rfl, written⟩ := writtenAs_of_argument h
  exact ⟨taken, rfl, ⟨p, d.previous, h⟩, written⟩

/-! ## Expressions -/

/-- The arguments of the call that an expression is, if it is one, and of those inside it were read from
tokens of the page in parentheses. -/
inductive Expr.Traced (tokens : List Token) : Expr → Prop
  | intro {e : Expr}
      (here : ∀ s callee args, e = .call s callee args → ∃ before rest, InList tokens before args rest)
      (parts : ∀ part ∈ e.parts, Traced tokens part) : Traced tokens e

namespace Expr.Traced

variable {tokens : List Token} {e left right : Expr} {args : List Arg} {s : Span}

theorem here {callee : Expr} (h : (Expr.call s callee args).Traced tokens) :
    ∃ before rest, InList tokens before args rest := by
  cases h with
  | intro here _ => exact here s callee args rfl

theorem inside (h : e.Traced tokens) : ∀ part ∈ e.parts, part.Traced tokens := by
  cases h with
  | intro _ parts => exact parts

/-- An expression without parts is no call. -/
theorem leaf (none : e.parts = []) : e.Traced tokens :=
  .intro (by rintro s callee args rfl; nomatch none) fun _ h => nomatch none ▸ h

/-- So is one that has none without its places. -/
theorem of_unplaced (none : e.unplaced.parts = []) : e.Traced tokens :=
  .leaf (by cases e <;> first | rfl | nomatch none)

theorem withSpan (h : e.Traced tokens) (s : Span) : (e.withSpan s).Traced tokens := by
  have parts : (e.withSpan s).parts = e.parts := by cases e <;> rfl
  refine .intro (fun s' callee args made => ?_) fun part mem => h.inside part (parts ▸ mem)
  cases e with
  | call s₀ callee₀ args₀ =>
    cases made
    exact h.here
  | _ => nomatch made

theorem member {name : Name} (h : e.Traced tokens) : (Expr.member s e name).Traced tokens :=
  .intro nofun fun _ mem => List.mem_singleton.mp mem ▸ h

theorem unary {op : UnaryOp} (h : e.Traced tokens) : (Expr.unary s op e).Traced tokens :=
  .intro nofun fun _ mem => List.mem_singleton.mp mem ▸ h

theorem binary {op : BinaryOp} (hleft : left.Traced tokens) (hright : right.Traced tokens) :
    (Expr.binary s op left right).Traced tokens :=
  .intro nofun (List.forall_mem_cons.mpr ⟨hleft, List.forall_mem_singleton.mpr hright⟩)

theorem call {before rest : List Token} (h : e.Traced tokens) (hlist : InList tokens before args rest)
    (hargs : ∀ arg ∈ args, arg.value.Traced tokens) : (Expr.call s e args).Traced tokens := by
  refine .intro ?_ (List.forall_mem_cons.mpr ⟨h, List.forall_mem_map.mpr hargs⟩)
  rintro _ _ _ ⟨⟩
  exact ⟨before, rest, hlist⟩

end Expr.Traced

namespace Parse

variable {tokens ts us : List Token} {n bound level : Nat} {p : Span} {d : Cursor} {e chain head : Expr}
  {args : List Arg} {expression : Parse Expr} {opening : Option Cursor}

/-! ## The count of a reader -/

/-- From tokens of a page an expression is read with any count that is large enough. -/
theorem parse_of_parseAt (page : Token.IsPage tokens) (suffix : ts <:+ tokens) (few : ts.length ≤ n)
    (h : Expr.parseAt n 0 ⟨ts, p⟩ = .ok (e, d)) : Expr.parse ⟨ts, p⟩ = .ok (e, d) := by
  have same (a b : Expr) (h : a.SeenAs .sharp b) : a = b := by
    rwa [Expr.SeenAs, Expr.seen_sharp, Expr.seen_sharp] at h
  have proceeds : Proceeds tokens fun n => Expr.parseAt n 0 :=
    proceeds_of_abreast page same fun h => Expr.abreast_parseAt 0 h
  have some_token : ts ≠ [] := by
    rintro rfl
    exact absurd (expression_of_parseAt n 0 few h).takes.length_le (by simp)
  exact (proceeds ⟨ts, p⟩ ⟨suffix, some_token⟩ ts.length n (Nat.le_refl _) few).1.trans h

/-- From so many tokens of a page at most the reader reads expressions, and traces them. -/
structure Traces (tokens : List Token) (n : Nat) (expression : Parse Expr) : Prop where
  complete : Complete n 0 expression
  sound : Sound n 0 expression
  parse : ∀ {ts : List Token} {p : Span} {e : Expr} {d : Cursor}, ts <:+ tokens → ts.length ≤ n →
    expression ⟨ts, p⟩ = .ok (e, d) → Expr.parse ⟨ts, p⟩ = .ok (e, d)
  traced : ∀ {ts : List Token} {p : Span} {e : Expr} {d : Cursor}, ts <:+ tokens → ts.length ≤ n →
    expression ⟨ts, p⟩ = .ok (e, d) → e.Traced tokens

/-! ## Arguments -/

theorem Traces.argument {arg : Arg} (h : Traces tokens n expression) (suffix : ts <:+ tokens)
    (few : ts.length ≤ n) (read : argument expression ⟨ts, p⟩ = .ok (arg, d)) :
    ∃ taken, ts = taken ++ d.rest ∧ d.rest.length < ts.length ∧ arg.IsWritten taken d.rest ∧
      arg.value.Traced tokens := by
  obtain ⟨e, parsed, rfl⟩ := exists_of_argument read
  have run := argument_run (h.parse suffix few parsed)
  obtain ⟨taken, hts, written⟩ := Arg.exists_isWritten run
  exact ⟨taken, hts, (h.sound few parsed).takes.length_le, written, h.traced suffix few parsed⟩

theorem Traces.commaSeparated (h : Traces tokens n expression) :
    ∀ {bound : Nat} {ts : List Token} {p : Span} {d : Cursor} {args : List Arg}, ts <:+ tokens →
      ts.length ≤ n → ts.length ≤ bound →
        Parse.commaSeparated (Parse.argument expression) bound ⟨ts, p⟩ = .ok (args, d) →
          Arg.AreWritten ts args d.rest ∧ ∀ arg ∈ args, arg.value.Traced tokens
  | 0, ts, p, d, args, suffix, few, zero, read => by
    obtain ⟨arg, f, first, -⟩ := exists_of_bind read
    obtain ⟨_, -, less, -⟩ := h.argument suffix few first
    omega
  | bound + 1, ts, p, d, args, suffix, few, fits, read => by
    change (Parse.argument expression >>= fun first => acceptSymbol .comma >>= fun more =>
      if more then Parse.commaSeparated (Parse.argument expression) bound >>= fun further =>
        pure (first :: further) else pure [first]) _ = _ at read
    obtain ⟨arg, ⟨us, q⟩, first, more⟩ := exists_of_bind read
    obtain ⟨taken, rfl, less, written, traced⟩ := h.argument suffix few first
    obtain ⟨t, vs, behind, comma, next⟩ | ⟨last, done⟩ := exists_of_acceptSymbol more
    · obtain rfl : us = t :: vs := behind
      obtain ⟨further, f, rest, made⟩ := exists_of_bind next
      cases made
      rw [List.length_cons] at less
      have suffix' : vs <:+ tokens :=
        ((List.suffix_cons t vs).trans (List.suffix_append taken _)).trans suffix
      obtain ⟨areWritten, allTraced⟩ := h.commaSeparated suffix' (by omega) (by omega) rest
      exact ⟨.cons written comma areWritten, List.forall_mem_cons.mpr ⟨traced, allTraced⟩⟩
    · cases done
      exact ⟨.one written last, List.forall_mem_singleton.mpr traced⟩

/-- The arguments of a call in parentheses. -/
theorem Traces.commaList (h : Traces tokens n expression) (suffix : ts <:+ tokens)
    (few : ts.length ≤ n)
    (read : Parse.commaList (Parse.argument expression) ⟨ts, p⟩ = .ok (args, d)) :
    Arg.AreWritten ts args d.rest ∧ ∀ arg ∈ args, arg.value.Traced tokens :=
  h.commaSeparated suffix few (Nat.le_refl _) read

/-! ## Chains -/

end Parse

/-- Some links and one more. -/
theorem Grammar.Linked.snoc {chain chain' e : Expr} {ts us rest : List Token}
    (h : Linked chain ts chain' us) (link : Link chain' us e rest) : Linked chain ts e rest := by
  induction h with
  | nil => exact .cons link .nil
  | cons h _ ih => exact .cons h (ih link)

namespace Parse

variable {tokens ts us : List Token} {n bound : Nat} {p : Span} {d : Cursor} {chain head : Expr}
  {expression : Parse Expr} {opening : Option Cursor} {r : Expr × Option Cursor}

/-- A chain behind its head, with the place of its last parentheses, if it ends in arguments. -/
structure IsChain (tokens : List Token) (head : Expr) (us : List Token) (r : Expr × Option Cursor)
    (rest : List Token) : Prop where
  traced : r.1.Traced tokens
  linked : Linked head us r.1.unplaced rest
  /-- Its callee ends in front of the parentheses. -/
  opened : ∀ before, r.2 = some before → ∃ s callee args, r.1 = .call s callee args ∧
    Linked head us callee.unplaced before.rest ∧ InList tokens before.rest args rest

theorem Traces.links (h : Traces tokens n expression) :
    ∀ {bound : Nat} {chain : Expr} {opening : Option Cursor} {ts : List Token} {p : Span},
      ts <:+ tokens → ts.length ≤ n + 1 → ts.length ≤ bound →
        IsChain tokens head us (chain, opening) ts →
          Parse.links expression bound chain opening ⟨ts, p⟩ = .ok (r, d) →
            IsChain tokens head us r d.rest
  | 0, chain, opening, ts, p, _, _, _, before, read => by
    cases read
    exact before
  | bound + 1, chain, opening, ts, p, suffix, few, fits, before, read => by
    have derived := links_of_links h.sound chain few fits read
    generalize hchain : chain.unplaced = c, r.1.unplaced = e, hrest : d.rest = rest at derived
    cases derived with
    | stop paren dot =>
      cases (links_end paren dot).symm.trans read
      exact before
    | @link _ _ _ ws _ _ link =>
      cases link with
      | @member _ t u _ name ht touching hu =>
        subst hchain hrest
        rw [links_member ht touching hu] at read
        simp only [List.length_cons] at few fits
        refine h.links (.trans ⟨[t, u], rfl⟩ suffix) (by omega) (by omega) ?_ read
        exact ⟨before.traced.member, before.linked.snoc (.member ht touching hu), nofun⟩
      | @apply _ t u _ ht hu touching =>
        subst hchain hrest
        rw [links_apply ht hu touching] at read
        simp only [List.length_cons] at few fits
        have list : InList tokens (t :: u :: ws) [] ws := .empty suffix ht hu
        refine h.links (.trans ⟨[t, u], rfl⟩ suffix) (by omega) (by omega) ?_ read
        refine ⟨before.traced.call list nofun, before.linked.snoc (.apply ht hu touching), ?_⟩
        rintro _ ⟨⟩
        exact ⟨_, chain, [], rfl, before.linked, list⟩
      | @call _ t vs args u _ ht hargs hu =>
        subst hchain hrest
        simp only [List.length_cons] at few fits
        have inside : vs <:+ tokens := (List.suffix_cons t vs).trans suffix
        have less := hargs.takes.length_le
        obtain ⟨args, q, rfl, run⟩ := hargs.read h.complete (by omega) (Nat.le_refl _) t.span
        have other : (Cursor.mk vs t.span).kind ≠ .symbol .rparen :=
          Cursor.kind_mk_eq vs t.span ▸ TokenKind.ne_of_startsOperand hargs.starts rfl
        rw [links_call ht other run hu] at read
        obtain ⟨written, traced⟩ := h.commaList inside (by omega) run
        have list : InList tokens (t :: vs) args ws := .args suffix ht written hu
        rw [List.length_cons] at less
        have behind : ws <:+ tokens :=
          ((List.suffix_cons u ws).trans hargs.takes.suffix).trans inside
        refine h.links behind (by omega) (by omega) ?_ read
        refine ⟨before.traced.call list traced, before.linked.snoc (.call ht hargs hu), ?_⟩
        rintro _ ⟨⟩
        exact ⟨_, chain, args, rfl, before.linked, list⟩

/-! ## Operands and operators -/

section

variable {level : Nat} {e left : Expr}

/-- At every level expressions are traced that are made of so many tokens at most. -/
structure TracesAll (tokens : List Token) (bound : Nat) : Prop where
  traced : ∀ {level : Nat} {ts : List Token} {p : Span} {e : Expr} {d : Cursor}, ts <:+ tokens →
    ts.length ≤ bound → Expr.parseAt bound level ⟨ts, p⟩ = .ok (e, d) → e.Traced tokens

theorem TracesAll.traces (h : TracesAll tokens bound) (page : Token.IsPage tokens) :
    Traces tokens bound (Expr.parseAt bound 0) where
  complete := complete_parseAt bound 0
  sound := expression_of_parseAt bound 0
  parse := parse_of_parseAt page
  traced := h.traced

theorem TracesAll.firstOperand (h : TracesAll tokens bound) (page : Token.IsPage tokens)
    (suffix : ts <:+ tokens) (few : ts.length ≤ bound + 1)
    (read : Parse.firstOperand (fun l => Expr.parseAt bound l) bound level ⟨ts, p⟩ = .ok (e, d)) :
    e.Traced tokens := by
  -- The links behind what an operand starts with.
  have behind {us : List Token} {head : Expr} {q : Span} (suffix : us <:+ tokens)
      (less : us.length ≤ bound) (traced : head.Traced tokens)
      (read : (Parse.links (Expr.parseAt bound 0) bound head none >>= fun r => pure r.1) ⟨us, q⟩ =
        .ok (e, d)) : e.Traced tokens := by
    obtain ⟨r, f, chained, made⟩ := exists_of_bind read
    cases made
    have start : IsChain tokens head.unplaced us (head, none) us := ⟨traced, .nil, nofun⟩
    exact ((h.traces page).links suffix (Nat.le_succ_of_le less) less start chained).traced
  have derived := operand_of_firstOperand (expression_of_parseAt bound) few few read
  generalize he : e.unplaced = e₀, hrest : d.rest = rest at derived
  cases derived with
  | literal | negative | positive | create => exact .of_unplaced (he ▸ rfl)
  | @not _ t us _ _ ht hlevel =>
    rw [List.length_cons] at few
    rw [firstOperand_not ht hlevel] at read
    obtain ⟨inner, f, parsed, made⟩ := exists_of_bind read
    cases made
    exact (h.traced ((List.suffix_cons t us).trans suffix) (by omega) parsed).unary
  | @neg _ t us _ _ ht unsigned =>
    rw [List.length_cons] at few
    rw [firstOperand_neg ht fun x => Cursor.kind_mk_eq us t.span ▸ unsigned x] at read
    obtain ⟨inner, f, parsed, made⟩ := exists_of_bind read
    cases made
    exact (h.traced ((List.suffix_cons t us).trans suffix) (by omega) parsed).unary
  | @plus _ t us _ _ ht unsigned =>
    rw [List.length_cons] at few
    rw [firstOperand_plus ht unsigned] at read
    exact h.traced ((List.suffix_cons t us).trans suffix) (by omega) read
  | @parens _ t us _ r vs _ _ ht inside hr =>
    have less := inside.takes.length_le
    rw [List.length_cons] at few less
    have within : us <:+ tokens := (List.suffix_cons t us).trans suffix
    obtain ⟨inner, q, -, parsed⟩ := complete_parseAt bound 0 (by omega) inside t.span
    rw [firstOperand_of_kind ht (by simp), primary_parens ht parsed hr] at read
    have traced := (h.traced within (by omega) parsed).withSpan (t.span.merge r.span)
    exact behind (((List.suffix_cons r vs).trans inside.takes.suffix).trans within) (by omega) traced
      read
  | chain head =>
    cases head with
    | @var t us _ ht =>
      rw [List.length_cons] at few
      rw [firstOperand_of_kind ht (by simp), primary_ident ht] at read
      exact behind ((List.suffix_cons t _).trans suffix) (by omega) (.leaf rfl) read
    | @withMember t u us _ ht hu =>
      simp only [List.length_cons] at few
      rw [firstOperand_of_kind ht (by simp), primary_dot ht hu] at read
      exact behind (.trans ⟨[t, u], rfl⟩ suffix) (by omega) (.leaf rfl) read

theorem TracesAll.extend (h : TracesAll tokens bound) :
    ∀ {count : Nat} {left : Expr} {ts : List Token} {p : Span}, ts <:+ tokens →
      ts.length ≤ bound + 1 → ts.length ≤ count → left.Traced tokens →
        Parse.extend (fun l => Expr.parseAt bound l) level count left ⟨ts, p⟩ = .ok (e, d) →
          e.Traced tokens
  | 0, _, _, _, _, _, _, before, read => by
    cases read
    exact before
  | count + 1, left, ts, p, suffix, few, fits, before, read => by
    have derived := further_of_extend (expression_of_parseAt bound) left few fits read
    generalize hleft : left.unplaced = left₀, e.unplaced = e₀, hrest : d.rest = rest at derived
    cases derived with
    | stop loose =>
      cases (extend_stop fun op hop => loose op (Cursor.kind_mk_eq ts p ▸ hop)).symm.trans read
      exact before
    | @cons _ _ t us op _ vs _ _ ht hlevel inside =>
      have less := inside.takes.length_le
      rw [List.length_cons] at few fits
      have within : us <:+ tokens := (List.suffix_cons t us).trans suffix
      obtain ⟨right, q, -, parsed⟩ := complete_parseAt bound _ (by omega) inside t.span
      rw [extend_cons ht hlevel ((rightOperand_eq op).trans parsed)] at read
      exact h.extend (inside.takes.suffix.trans within) (by omega) (by omega)
        (before.binary (h.traced within (by omega) parsed)) read

end

/-- **The arguments in an expression come from the tokens of the page**, whatever it was read with. -/
theorem tracesAll (page : Token.IsPage tokens) : ∀ bound, TracesAll tokens bound
  | 0 => ⟨fun _ _ read => nomatch read⟩
  | bound + 1 => by
    refine ⟨fun suffix few read => ?_⟩
    obtain ⟨first, ⟨us, q⟩, operand, more⟩ := exists_of_bind read
    have traced := (tracesAll page bound).firstOperand page suffix few operand
    have taken := (operand_of_firstOperand (expression_of_parseAt bound) few few operand).takes
    have less := taken.length_le
    exact (tracesAll page bound).extend (taken.suffix.trans suffix) (by omega) (by omega) traced more

theorem traces_parse (page : Token.IsPage tokens) (n : Nat) : Traces tokens n Expr.parse where
  complete := complete_parse
  sound := expression_of_parse
  parse _ _ read := read
  traced suffix _ read := (tracesAll page _).traced suffix (Nat.le_refl _) read

end Parse

end PageScript
