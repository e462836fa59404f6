import PageScript.Proofs.Syntax.Program.Writing

/-!
# Proofs/Syntax/Program/Expressions — expressions and chains inside statements

The readers of expressions take what is written, up to a token that no expression goes on with
(`Expr.WrittenAt.takes`).  A statement that starts with a name reads the chain link by link, so
`Expr.ReadsLinks` is about the reader of links in the middle of its work, as `Expr.ReadsChain` is for
chains inside expressions.
-/

namespace PageScript

open Parse

/-- No expression goes on with the token. -/
structure TokenKind.StopsExpr (kind : TokenKind) : Prop where
  lparen : kind ≠ .symbol .lparen
  dot : kind ≠ .symbol .dot
  op : kind.binaryOp? = none

/-- The token is the end of a statement. -/
def TokenKind.Ends (kind : TokenKind) : Prop := kind.endsStatement = true

namespace TokenKind

variable {kind : TokenKind}

theorem StopsExpr.follows {rest : List Token} (h : (Cursor.mk rest .origin).kind.StopsExpr)
    (level : Nat) : Follows level rest :=
  ⟨h.lparen, h.dot, fun _ hop => nomatch h.op.symm.trans hop⟩

theorem Ends.stopsExpr (h : kind.Ends) : kind.StopsExpr := by
  cases kind with
  | symbol s =>
    cases s with
    | colon => exact ⟨nofun, nofun, rfl⟩
    | _ => nomatch h
  | keyword k => nomatch h
  | _ => exact ⟨nofun, nofun, rfl⟩

theorem Ends.ne_comma (h : kind.Ends) : kind ≠ .symbol .comma := by
  rintro rfl
  cases h

/-- What may follow an item of a list at the end of a statement. -/
theorem stopsExpr_of_comma_or (h : kind = .symbol .comma ∨ kind.Ends) : kind.StopsExpr := by
  obtain rfl | h := h
  · exact ⟨nofun, nofun, rfl⟩
  · exact h.stopsExpr

theorem stopsExpr_of_isWord {word : String} (h : kind.isWord word = true) : kind.StopsExpr := by
  cases kind with
  | ident name => exact ⟨nofun, nofun, rfl⟩
  | _ => cases h

theorem IsJoint.ends (h : kind.IsJoint) : kind.Ends := by
  cases kind with
  | symbol s => cases s <;> first | rfl | exact h.elim
  | _ => first | rfl | exact h.elim

theorem IsJoint.not_keyword (h : kind.IsJoint) (k : Keyword) : kind ≠ .keyword k := by
  rintro rfl
  exact h

theorem IsJoint.stopsExpr (h : kind.IsJoint) : kind.StopsExpr := h.ends.stopsExpr

end TokenKind

namespace Expr

variable {e chain : Expr} {arg : Arg} {args : List Arg} {ps qs : List Piece} {α : Type}
  {follow : TokenKind → Prop} {result : α → Prop}

/-- The expression is another one, up to places. -/
def Same (e e' : Expr) : Prop := e'.unplaced = e.unplaced

/-- **An expression inside a statement is read**, up to a token that it does not go on with. -/
theorem WrittenAt.takes (h : WrittenAt 0 e ps) :
    Takes Expr.parse ps TokenKind.StopsExpr e.Same := by
  intro ts rest s hts hrest
  have some_token : 0 < ts.length := hts.length ▸ List.length_pos_iff.mpr h.starts.ne_nil
  obtain ⟨bound, hbound⟩ : ∃ b, (ts ++ rest).length = b + 1 :=
    ⟨(ts ++ rest).length - 1, by rw [List.length_append]; omega⟩
  have fits : ts.length ≤ bound + 1 := by
    rw [← hbound, List.length_append]
    exact Nat.le_add_right _ _
  obtain ⟨e', q, he, hparse⟩ :=
    (h.reads bound hts fits).1.parse (p := s) (Nat.le_refl 0) fits (hrest.follows 0)
  refine ⟨e', q, he, ?_⟩
  rw [← hparse, ← hbound]
  rfl

theorem takes_separated {es : List Expr} (h : Separated (WrittenAt 0) es ps)
    (hcomma : ∀ k, follow k → k.StopsExpr ∧ k ≠ .symbol .comma) :
    Takes (commaList Expr.parse) ps follow (List.Forall₂ Same es) := by
  refine h.takes (fun _ _ h => h.takes.mono fun k hk => ?_) fun k hk => (hcomma k hk).2
  obtain rfl | hk := hk
  · exact ⟨nofun, nofun, rfl⟩
  · exact (hcomma k hk).1

/-- The first piece is not the word of a last case. -/
def StartsOther (ps : List Piece) : Prop := ∃ p qs, ps = p :: qs ∧ p.kind ≠ .keyword .elseWord

theorem StartsOther.append (h : StartsOther ps) (qs : List Piece) : StartsOther (ps ++ qs) := by
  obtain ⟨p, rest, rfl, hp⟩ := h
  exact ⟨p, rest ++ qs, rfl, hp⟩

theorem StartsOther.of_kind {p : Piece} {kind : TokenKind} (h : p.kind = kind)
    (hkind : kind ≠ .keyword .elseWord) (qs : List Piece) : StartsOther (p :: qs) :=
  ⟨p, qs, rfl, h ▸ hkind⟩

mutual

theorem Bare.startsOther : ∀ {e : Expr} {ps : List Piece}, Bare e ps → StartsOther ps
  | _, _, .literal (p := p) hvalue =>
    ⟨p, [], rfl, fun hp => by cases (hp ▸ hvalue : TokenKind.literal? _ = _)⟩
  | _, _, .negative hsign _ => .of_kind hsign nofun _
  | _, _, .var hname => .of_kind hname nofun _
  | _, _, .withMember hdot _ => .of_kind hdot nofun _
  | _, _, .create hnew _ _ => .of_kind hnew nofun _
  | _, _, .not hnot _ => .of_kind hnot nofun _
  | _, _, .neg hneg _ _ => .of_kind hneg nofun _
  | _, _, .member hobject _ _ _ => hobject.startsOther.append _
  | _, _, .apply hcallee _ _ _ => hcallee.startsOther.append _
  | _, _, .call hcallee _ _ _ => hcallee.startsOther.append _
  | _, _, .binary hleft _ _ => hleft.startsOther.append _

theorem WrittenAt.startsOther : ∀ {level : Nat} {e : Expr} {ps : List Piece}, WrittenAt level e ps →
    StartsOther ps
  | _, _, _, .bare _ h => h.startsOther
  | _, _, _, .parens hl _ _ => .of_kind hl nofun _

end

/-! ## Arguments -/

/-- The argument is another one, up to places. -/
def SameArg (arg arg' : Arg) : Prop := arg'.unplaced = arg.unplaced

theorem ArgWritten.takes (h : ArgWritten arg ps) :
    Takes (argument Expr.parse) ps TokenKind.StopsExpr (SameArg arg) := by
  intro ts rest s hts hrest
  have fits : ts.length ≤ (ts ++ rest).length := by
    rw [List.length_append]
    exact Nat.le_add_right _ _
  obtain ⟨value, q, hvalue, hrun⟩ := h.reads (ts ++ rest).length hts fits (p := s) (hrest.follows 0)
  obtain ⟨value', byValue⟩ := arg
  refine ⟨.mk value byValue, q, ?_, ?_⟩
  · change Arg.mk value.unplaced byValue = .mk value'.unplaced byValue
    rw [hvalue]
    rfl
  · exact hrun

theorem ArgsWritten.separated {args : List Arg} {ps : List Piece} (h : ArgsWritten args ps) :
    Separated ArgWritten args ps := by
  cases h with
  | one h => exact .one h
  | cons h hcomma further => exact .cons h hcomma further.separated

theorem unplacedArgs_of_same : ∀ {args args' : List Arg}, List.Forall₂ SameArg args args' →
    unplacedArgs args' = unplacedArgs args
  | _, _, .nil => rfl
  | _, _, .cons h further => congrArg₂ List.cons h (unplacedArgs_of_same further)

theorem ArgsWritten.takes (h : ArgsWritten args ps) :
    Takes (commaList (argument Expr.parse)) ps (· = .symbol .rparen)
      fun args' => unplacedArgs args' = unplacedArgs args := by
  have read : Takes (commaList (argument Expr.parse)) ps (· = .symbol .rparen)
      (List.Forall₂ SameArg args) := by
    refine h.separated.takes (fun _ _ h => h.takes.mono fun k hk => ?_) fun k hk => hk ▸ nofun
    obtain rfl | rfl := hk <;> exact ⟨nofun, nofun, rfl⟩
  exact read.imp fun _ => unplacedArgs_of_same

/-! ## Chains -/

/-- Behind tokens of a chain with a number of links, the reader of links stands as if it had the chain
in hand. -/
def ReadsLinks (count : Nat) (e : Expr) (ts : List Token) : Prop :=
  ∀ (rest : List Token) (s : Span), ∃ head d, chainHead ⟨ts ++ rest, s⟩ = .ok (head, d) ∧
    (ts ++ rest).length ≤ d.rest.length + 2 ∧
      ∀ n, ∃ e' q opening, e.Same e' ∧
        links Expr.parse (n + count) head none d = links Expr.parse n e' opening ⟨rest, q⟩

variable {t u : Token} {ts : List Token} {s : Span} {name : Name} {count : Nat}

theorem readsLinks_var (ht : t.kind = .ident name) : ReadsLinks 0 (.var s name) [t] := by
  intro rest p
  obtain ⟨kind, span, spaced, adjacent⟩ := t
  subst ht
  exact ⟨.var span name, ⟨rest, span⟩, rfl, Nat.le_succ _,
    fun n => ⟨.var span name, span, none, rfl, rfl⟩⟩

theorem readsLinks_withMember (ht : t.kind = .symbol .dot) (hu : u.kind.memberName? = some name) :
    ReadsLinks 0 (.withMember s name) [t, u] := by
  intro rest p
  obtain ⟨kind, span, spaced, adjacent⟩ := t
  subst ht
  refine ⟨.withMember (span.merge u.span) name, ⟨rest, u.span⟩, ?_, Nat.le_refl _,
    fun n => ⟨.withMember (span.merge u.span) name, u.span, none, rfl, rfl⟩⟩
  change (memberName >>= fun name => previous >>= fun s =>
    pure (Expr.withMember (span.merge s) name)) ⟨u :: rest, span⟩ = _
  rw [bind_of_ok (memberName_cons hu)]
  rfl

/-- A chain with one more link. -/
theorem ReadsLinks.link {us : List Token} {e' : Expr} (h : ReadsLinks count e ts)
    (hlink : ∀ (rest : List Token) (chain : Expr) (q : Span) (opening : Option Cursor) (n : Nat),
      e.Same chain → ∃ chain' q' opening', e'.Same chain' ∧
        links Expr.parse (n + 1) chain opening ⟨us ++ rest, q⟩ =
          links Expr.parse n chain' opening' ⟨rest, q'⟩) :
    ReadsLinks (count + 1) e' (ts ++ us) := by
  intro rest p
  obtain ⟨head, d, hhead, fits, hlinks⟩ := h (us ++ rest) p
  rw [← List.append_assoc] at hhead fits
  refine ⟨head, d, hhead, fits, fun n => ?_⟩
  obtain ⟨chain, q, opening, hchain, hrun⟩ := hlinks (n + 1)
  obtain ⟨chain', q', opening', hchain', hrun'⟩ := hlink rest chain q opening n hchain
  refine ⟨chain', q', opening', hchain', ?_⟩
  rw [← hrun', ← hrun, Nat.add_right_comm, Nat.add_assoc]

theorem ReadsLinks.member (h : ReadsLinks count e ts) (ht : t.kind = .symbol .dot)
    (touching : t.adjacent = true) (hu : u.kind.memberName? = some name) :
    ReadsLinks (count + 1) (.member s e name) (ts ++ [t, u]) := by
  refine h.link fun rest chain q opening n hchain =>
    ⟨_, _, _, ?_, links_member ht touching hu⟩
  change Expr.member .origin chain.unplaced name = .member .origin e.unplaced name
  rw [hchain]

theorem ReadsLinks.apply (h : ReadsLinks count e ts) (ht : t.kind = .symbol .lparen)
    (hu : u.kind = .symbol .rparen) (touching : u.adjacent = true) :
    ReadsLinks (count + 1) (.call s e []) (ts ++ [t, u]) := by
  refine h.link fun rest chain q opening n hchain =>
    ⟨_, _, _, ?_, links_apply ht hu touching⟩
  change Expr.call .origin chain.unplaced [] = .call .origin e.unplaced []
  rw [hchain]

theorem ReadsLinks.call {us : List Token} {r : Token} (h : ReadsLinks count e ts)
    (ht : t.kind = .symbol .lparen) (hargs : ArgsWritten args ps) (hus : Piece.GiveAll ps us)
    (hr : r.kind = .symbol .rparen) :
    ReadsLinks (count + 1) (.call s e args) (ts ++ t :: (us ++ [r])) := by
  refine h.link fun rest chain q opening n hchain => ?_
  obtain ⟨args', q', hargs', hread⟩ := hargs.takes.run (r :: rest) t.span hus hr
  obtain ⟨x, xs, rfl, starts⟩ := hargs.starts
  obtain ⟨y, ys, rfl, hy, -⟩ := hus
  have other : (Cursor.mk (y :: ys ++ r :: rest) t.span).kind ≠ .symbol .rparen := by
    rw [kind_cons_append, hy]
    exact starts.rparen
  rw [List.cons_append, List.append_assoc]
  refine ⟨_, _, _, ?_, links_call ht other hread hr⟩
  change Expr.call .origin chain.unplaced (unplacedArgs args') = .call .origin e.unplaced _
  rw [hchain, hargs']

theorem ChainWritten.ne_nil (h : ChainWritten e ps) : ps ≠ [] := by
  cases h with
  | var | withMember => exact List.cons_ne_nil _ _
  | member | apply | call => exact List.append_ne_nil_of_right_ne_nil _ (List.cons_ne_nil _ _)

/-- A chain has no more links than tokens, and a link has two tokens at least. -/
theorem ChainWritten.reads : ∀ {e : Expr} {ps : List Piece}, ChainWritten e ps →
    ∀ {ts : List Token}, Piece.GiveAll ps ts → ∃ count, 2 * count + 1 ≤ ts.length ∧
      ReadsLinks count e ts
  | _, _, .var hname, ts, hts => by
    obtain ⟨t, _, rfl, ht, ⟨⟩⟩ := hts
    exact ⟨0, Nat.le_refl 1, readsLinks_var (ht.trans hname)⟩
  | _, _, .withMember hdot hname, ts, hts => by
    obtain ⟨t, _, rfl, ht, hus⟩ := hts
    obtain _ | ⟨hu, ⟨⟩⟩ := hus
    exact ⟨0, Nat.le_succ 1, readsLinks_withMember (ht.trans hdot) (hu.kind ▸ hname)⟩
  | _, _, .member hobject hdot touching hname, ts, hts => by
    obtain ⟨ts₁, ts₂, rfl, h₁, h₂⟩ := hts.append hobject.ne_nil
    obtain _ | ⟨ht, h₂⟩ := h₂
    obtain _ | ⟨hu, ⟨⟩⟩ := h₂
    obtain ⟨count, fits, read⟩ := hobject.reads h₁
    refine ⟨count + 1, ?_, read.member (ht.kind.trans hdot) (ht.touching touching) (hu.kind ▸ hname)⟩
    rw [List.length_append, List.length_cons, List.length_singleton]
    omega
  | _, _, .apply hcallee hl hr touching, ts, hts => by
    obtain ⟨ts₁, ts₂, rfl, h₁, h₂⟩ := hts.append hcallee.ne_nil
    obtain _ | ⟨ht, h₂⟩ := h₂
    obtain _ | ⟨hu, ⟨⟩⟩ := h₂
    obtain ⟨count, fits, read⟩ := hcallee.reads h₁
    refine ⟨count + 1, ?_,
      read.apply (ht.kind.trans hl) (hu.kind.trans hr) (hu.touching touching)⟩
    rw [List.length_append, List.length_cons, List.length_singleton]
    omega
  | _, _, .call hcallee hl hargs hr, ts, hts => by
    obtain ⟨ts₁, ts₂, rfl, h₁, h₂⟩ := hts.append hcallee.ne_nil
    obtain ⟨tl, us, tr, rfl, htl, htr, hus⟩ := giveAll_parens hl hr (.of_forall₂ h₂)
    obtain ⟨count, fits, read⟩ := hcallee.reads h₁
    refine ⟨count + 1, ?_, read.call htl hargs (.of_forall₂ hus) htr⟩
    rw [List.length_append, List.length_cons, List.length_append, List.length_singleton]
    omega

/-- **The chain that a statement starts with is read**, up to a token that is no link. -/
theorem ChainWritten.takes {f : Expr × Option Cursor → Parse α} (h : ChainWritten chain ps)
    (hf : ∀ chain' opening, chain.Same chain' → Takes (f (chain', opening)) qs follow result)
    (ahead : Ahead qs follow fun k => k ≠ .symbol .lparen ∧ k ≠ .symbol .dot) :
    Takes (chainHead >>= fun head => Parse.remaining >>= fun n => links Expr.parse n head none >>= f)
      (ps ++ qs) follow result := by
  intro ts rest s hts hrest
  obtain ⟨ts₁, ts₂, rfl, h₁, h₂⟩ := giveAll_append hts
  obtain ⟨count, few, read⟩ := h.reads h₁
  obtain ⟨head, d, hhead, fits, hlinks⟩ := read (ts₂ ++ rest) s
  rw [List.length_append] at fits
  obtain ⟨n, hn⟩ : ∃ n, d.rest.length = n + count := ⟨d.rest.length - count, by omega⟩
  obtain ⟨chain', q, opening, hchain, hrun⟩ := hlinks n
  obtain ⟨lparen, dot⟩ := ahead.kind h₂ hrest q
  obtain ⟨a, s', ha, hrest'⟩ := hf chain' opening hchain (s := q) h₂ hrest
  refine ⟨a, s', ha, ?_⟩
  have whole : links Expr.parse d.rest.length head none d = .ok ((chain', opening), ⟨ts₂ ++ rest, q⟩) := by
    rw [hn, hrun]
    exact links_stop lparen dot
  rw [List.append_assoc, bind_of_ok hhead, ← hrest']
  exact bind_of_ok whole

end Expr

end PageScript
