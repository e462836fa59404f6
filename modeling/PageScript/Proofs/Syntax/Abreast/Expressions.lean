import PageScript.Proofs.Syntax.Abreast.Readers

/-!
# Proofs/Syntax/Abreast/Expressions — expressions side by side

From cursors abreast the readers of expressions read expressions that look alike, or fail alike
(`Expr.abreast_parseAt`).  A reader that is given the reader of smaller expressions is compared for
two of these that are abreast wherever no more tokens are left than a number `n`; so many are left
once a token has been taken.
-/

namespace PageScript

variable {V : Sight} {extra least n : Nat} {c d c' d' : Cursor}

/-- Arguments that look alike. -/
abbrev Arg.SeenAs (V : Sight) (arg arg' : Arg) : Prop := arg.seen V = arg'.seen V

namespace Parse

/-! ## Parts of chains -/

theorem abreast_signedNumber (h : c.Abreast V extra d) :
    Abreast V extra 1 (fun x y => x.1 = y.1 ∧ x.2.SeenAs V y.2) signedNumber signedNumber c d := by
  have number {s s' : Span} (apply : Float → Float) (hs : s.SeenAs V s') {c d : Cursor}
      (h : c.Abreast V extra d) :
      Abreast V extra 1 (fun x y => x.1 = y.1 ∧ x.2.SeenAs V y.2) (numberBehind apply s)
        (numberBehind apply s') c d := by
    refine abreast_kind h fun k hk => ?_
    cases k with
    | number => exact (abreast_advance h (hk ▸ rfl)).bind fun _ _ _ _ hstop onward =>
        abreast_pure onward.abreast ⟨rfl, V.merge hs hstop⟩
    | _ => exact abreast_expected h _
  refine abreast_span h fun s s' hs => ?_
  refine abreast_accept h isProper_of_isSymbol
    (fun _ _ _ onward => (number (- ·) hs onward.abreast).loosen) fun _ => ?_
  exact abreast_accept h isProper_of_isSymbol
    (fun _ _ _ onward => (number id hs onward.abreast).loosen) fun _ => number id hs h

theorem abreast_chainHead (h : c.Abreast V extra d) :
    Abreast V extra 1 (Expr.SeenAs V) chainHead chainHead c d := by
  refine abreast_span h fun s s' hs => abreast_kind h fun k hk => ?_
  split
  · exact abreast_taken h (hk ▸ rfl) (congrArg (Expr.var · _) hs)
  · refine (abreast_advance h (hk ▸ rfl)).bind fun _ _ _ _ _ onward =>
      (abreast_memberName onward.abreast).bindSame (j := 0) (fun name _ _ onward => ?_) |>.loosen
    exact abreast_previous onward.abreast fun _ _ hstop =>
      abreast_pure onward.abreast (congrArg (Expr.withMember · name) (V.merge hs hstop))
  · exact abreast_expected h _

variable {expression expression' : Parse Expr} {bound bound' : Nat}

theorem abreast_argument
    (hexpression : AbreastWithin V extra n (Expr.SeenAs V) expression expression') :
    AbreastWithin V extra n (Arg.SeenAs V) (argument expression) (argument expression') :=
  fun h hn => abreast_get <| (hexpression h hn).bind fun _ _ _ _ same onward =>
    abreast_get <| abreast_pure onward.abreast <| by
      rw [Arg.SeenAs, Arg.seen, Arg.seen, same, onward.isParenthesized_eq h]

/-- The places before the last parentheses of two chains. -/
def OpeningsAbreast (V : Sight) (extra : Nat) (c d : Cursor) : Option Cursor → Option Cursor → Prop :=
  Option.Rel fun before before' => Cursor.Onward V extra 1 c d before before'

theorem abreast_links
    (hexpression : AbreastWithin V extra n (Expr.SeenAs V) expression expression') :
    ∀ {bound bound' : Nat} {chain chain' : Expr} {opening opening' : Option Cursor}
      {c' d' : Cursor}, Cursor.Onward V extra 1 c d c' d' → c'.rest.length ≤ n + 1 →
        c'.rest.length ≤ bound → c'.rest.length ≤ bound' → chain.SeenAs V chain' →
          OpeningsAbreast V extra c d opening opening' →
            Abreast V extra 0 (fun x y => x.1.SeenAs V y.1 ∧ OpeningsAbreast V extra c d x.2 y.2)
              (links expression bound chain opening) (links expression' bound' chain' opening')
              c' d' := by
  intro bound
  induction bound with
  | zero =>
    intro _ _ _ _ _ _ _ hc _ hbound
    exact absurd hc.abreast.tokens.length_pos (Nat.not_lt.mpr hbound)
  | succ bound ih =>
    intro bound' chain chain' opening opening' c' d' hc hn hbound hbound' same sameOpening
    obtain ⟨bound', rfl⟩ := exists_succ_of_abreast hc.abreast hbound'
    have stop : Abreast V extra 0
        (fun x y => x.1.SeenAs V y.1 ∧ OpeningsAbreast V extra c d x.2 y.2)
        (pure (chain, opening)) (pure (chain', opening')) c' d' :=
      abreast_pure hc.abreast ⟨same, sameOpening⟩
    -- Every link takes a token, so the counts for the next one are large enough.
    have next {e e' : Cursor} {next next' : Expr} {o o' : Option Cursor}
        (onward : Cursor.Onward V extra 1 c' d' e e') (same : next.SeenAs V next')
        (sameOpening : OpeningsAbreast V extra c d o o') :
        Abreast V extra 0 (fun x y => x.1.SeenAs V y.1 ∧ OpeningsAbreast V extra c d x.2 y.2)
          (links expression bound next o) (links expression' bound' next' o') e e' := by
      have := onward.taken.length_le
      exact ih ((hc.trans onward).mono (by omega)) (by omega) (by omega) (by omega) same sameOpening
    unfold links
    refine abreast_get ?_
    rw [← hc.abreast.kind_eq]
    cases hk : c'.kind with
    | symbol sign =>
      cases sign with
      | dot =>
        dsimp only
        rw [← hc.abreast.isAdjacent_eq hk]
        refine .ite (fun _ => ?_) fun _ => stop
        refine (abreast_advance hc.abreast (hk ▸ rfl)).bind (j := 0)
          (fun _ _ _ _ _ onward => ?_) |>.loosen
        refine (abreast_memberName onward.abreast).bindSame (j := 0)
          (fun name _ _ onward' => ?_) |>.loosen
        exact abreast_previous onward'.abreast fun _ _ hstop =>
          next ((onward.trans onward').mono (by omega))
            (congrArg₂ (Expr.member · · name) (V.merge same.span hstop) same) .none
      | lparen =>
        have further {args args' : List Arg} (hargs : args.map (Arg.seen V) = args'.map (Arg.seen V))
            {e e' : Cursor} (onward : Cursor.Onward V extra 1 c' d' e e') :
            Abreast V extra 0 (fun x y => x.1.SeenAs V y.1 ∧ OpeningsAbreast V extra c d x.2 y.2)
              (do
                let _ ← requireSymbol .rparen
                let s := chain.span.merge (← previous)
                links expression bound (.call s chain args) (some c'))
              (do
                let _ ← requireSymbol .rparen
                let s := chain'.span.merge (← previous)
                links expression' bound' (.call s chain' args') (some d')) e e' := by
          rw [← Expr.seenArgs_eq_map, ← Expr.seenArgs_eq_map] at hargs
          refine (abreast_requireSymbol .rparen onward.abreast).bind (j := 0)
            (fun _ _ _ _ _ onward' => ?_) |>.loosen
          refine abreast_previous onward'.abreast fun _ _ hstop => ?_
          refine next ((onward.trans onward').mono (by omega)) ?_ (.some hc)
          rw [Expr.SeenAs, Expr.seen, Expr.seen, V.merge same.span hstop, same, hargs]
        dsimp only
        refine (abreast_advance hc.abreast (hk ▸ rfl)).bind (j := 0)
          (fun _ _ e e' _ onward => abreast_get ?_) |>.loosen
        have empty : (e.kind.isSymbol .rparen && e.isAdjacent) =
            (e'.kind.isSymbol .rparen && e'.isAdjacent) := by
          rw [← onward.abreast.kind_eq]
          cases hclosed : e.kind.isSymbol .rparen with
          | true => rw [onward.abreast.isAdjacent_eq (TokenKind.isSymbol_iff.mp hclosed)]
          | false => rfl
        rw [← empty]
        split
        · exact further rfl onward
        · have := onward.taken.length_le
          exact ((abreast_commaList onward.abreast fun h hn =>
            abreast_argument hexpression h (by omega)).bind fun _ _ _ _ hargs onward' =>
              further hargs ((onward.trans onward').mono (by omega))).loosen
      | _ => exact stop
    | _ => exact stop

theorem abreast_createdPath : ∀ {bound bound' : Nat} {c d : Cursor}, c.Abreast V extra d →
    c.rest.length ≤ bound → c.rest.length ≤ bound' →
      Abreast V extra 0 Eq (createdPath bound) (createdPath bound') c d := by
  intro bound
  induction bound with
  | zero =>
    intro _ _ _ h hbound
    exact absurd h.tokens.length_pos (Nat.not_lt.mpr hbound)
  | succ bound ih =>
    intro bound' c d h hbound hbound'
    obtain ⟨bound', rfl⟩ := exists_succ_of_abreast h hbound'
    refine abreast_accept h isProper_of_isSymbol (fun c' d' _ onward => ?_)
      fun _ => abreast_pure h rfl
    refine (abreast_memberName onward.abreast).bindSame (j := 0)
      (fun name _ _ onward' => ?_) |>.loosen
    have := (onward.trans onward').taken.length_le
    exact (ih onward'.abreast (by omega) (by omega)).bindSame fun _ _ _ onward =>
      abreast_pure onward.abreast rfl

/-! ## Operands and operators -/

theorem abreast_primary (h : c.Abreast V extra d) (hn : c.rest.length ≤ n + 1) (hbound : n ≤ bound)
    (hbound' : n ≤ bound')
    (hexpression : AbreastWithin V extra n (Expr.SeenAs V) expression expression') :
    Abreast V extra 1 (Expr.SeenAs V) (primary expression bound) (primary expression' bound')
      c d := by
  -- Whatever an operand starts with, a chain may follow.
  have chain {e e' : Expr} (same : e.SeenAs V e') {c' d' : Cursor}
      (onward : Cursor.Onward V extra 1 c d c' d') :
      Abreast V extra 0 (Expr.SeenAs V) (links expression bound e none >>= fun x => pure x.1)
        (links expression' bound' e' none >>= fun x => pure x.1) c' d' := by
    have := onward.taken.length_le
    exact (abreast_links hexpression onward (by omega) (by omega) (by omega) same .none).bind
      fun _ _ _ _ same onward => abreast_pure onward.abreast same.1
  have head : Abreast V extra 1 (Expr.SeenAs V)
      (chainHead >>= fun head => links expression bound head none >>= fun x => pure x.1)
      (chainHead >>= fun head => links expression' bound' head none >>= fun x => pure x.1) c d :=
    (abreast_chainHead h).bind fun _ _ _ _ same onward => chain same onward
  have signed : Abreast V extra 1 (Expr.SeenAs V)
      (signedNumber >>= fun x => pure (Expr.literal x.2 (.number x.1)))
      (signedNumber >>= fun x => pure (Expr.literal x.2 (.number x.1))) c d :=
    (abreast_signedNumber h).bind fun _ _ _ _ same onward => abreast_pure onward.abreast <| by
      rw [Expr.SeenAs, Expr.seen, Expr.seen, same.1, same.2]
  refine abreast_span h fun s s' hs => abreast_kind h fun k hk => ?_
  cases hvalue : k.literal? with
  | some value =>
    refine abreast_taken h ?_ (congrArg (Expr.literal · value) hs)
    rw [hk]
    cases k <;> first | rfl | nomatch hvalue
  | none =>
    cases k with
    | ident => exact head
    | symbol sign =>
      cases sign with
      | dot => exact head
      | minus => exact signed
      | plus => exact signed
      | lparen =>
        refine (abreast_advance h (hk ▸ rfl)).bind (j := 0) fun _ _ c' d' _ onward => ?_
        have := onward.taken.length_le
        refine (hexpression onward.abreast (by omega)).bind (j := 0)
          (fun _ _ _ _ same onward' => ?_) |>.loosen
        refine (abreast_requireSymbol .rparen onward'.abreast).bind (j := 0)
          (fun _ _ _ _ _ onward'' => ?_) |>.loosen
        refine abreast_previous onward''.abreast fun _ _ hstop => chain ?_
          (((onward.trans onward').trans onward'').mono (by omega))
        rw [Expr.SeenAs, Expr.seen_withSpan, Expr.seen_withSpan, same, V.merge hs hstop]
      | _ => exact abreast_expected h _
    | keyword word =>
      cases word with
      | newWord =>
        refine (abreast_advance h (hk ▸ rfl)).bind (j := 0) fun _ _ _ _ _ onward => ?_
        refine (abreast_identifier onward.abreast).bindSame (j := 0)
          (fun first _ _ onward' => ?_) |>.loosen
        have := (onward.trans onward').taken.length_le
        have path : Abreast V extra 0 Eq (createdPath bound) (createdPath bound') _ _ :=
          abreast_createdPath onward'.abreast (by omega) (by omega)
        refine path.bindSame (j := 0) fun further _ _ onward => ?_
        exact abreast_previous onward.abreast fun _ _ hstop => abreast_pure onward.abreast (congrArg (Expr.create · _) (V.merge hs hstop))
      | _ => exact abreast_expected h _
    | _ => exact abreast_expected h _

variable {operand operand' : Nat → Parse Expr}

theorem abreast_firstOperand (h : c.Abreast V extra d) (hn : c.rest.length ≤ n + 1)
    (hbound : n ≤ bound) (hbound' : n ≤ bound')
    (hoperand : ∀ level, AbreastWithin V extra n (Expr.SeenAs V) (operand level) (operand' level))
    (level : Nat) :
    Abreast V extra 1 (Expr.SeenAs V) (firstOperand operand bound level)
      (firstOperand operand' bound' level) c d := by
  have unsigned : Abreast V extra 1 (Expr.SeenAs V) (primary (operand 0) bound)
      (primary (operand' 0) bound') c d :=
    abreast_primary h hn hbound hbound' (hoperand 0)
  have behind (level : Nat) {c' d' : Cursor} (onward : Cursor.Onward V extra 1 c d c' d') :
      Abreast V extra 1 (Expr.SeenAs V) (operand level) (operand' level) c' d' := by
    have := onward.taken.length_le
    exact hoperand level onward.abreast (by omega)
  have unary (op : UnaryOp) (level : Nat) (proper : c.kind.isProper = true) :
      Abreast V extra 1 (Expr.SeenAs V)
        (advance >>= fun s => operand level >>= fun e => pure (.unary (s.merge e.span) op e))
        (advance >>= fun s => operand' level >>= fun e => pure (.unary (s.merge e.span) op e))
        c d := by
    refine (abreast_advance h proper).bind (j := 0) fun s s' _ _ hs onward => ?_
    refine (behind level onward).bind (j := 0) (fun e e' _ _ same onward => ?_) |>.loosen
    exact abreast_pure onward.abreast
      (congrArg₂ (Expr.unary · op ·) (V.merge hs same.span) same)
  refine abreast_get ?_
  rw [← h.kind_eq]
  cases hk : c.kind with
  | symbol sign =>
    rw [← h.nextKind_eq (hk ▸ rfl)]
    cases sign with
    | minus => exact .ite (fun _ => unsigned) fun _ => unary .neg _ (hk ▸ rfl)
    | plus =>
      refine .ite (fun _ => unsigned) fun _ => ?_
      exact (abreast_advance h (hk ▸ rfl)).bind (j := 0) fun _ _ _ _ _ onward =>
        (behind _ onward).loosen
    | _ => exact unsigned
  | keyword word =>
    cases word with
    | notWord => exact .ite (fun _ => unary .not _ (hk ▸ rfl)) fun _ => unsigned
    | _ => exact unsigned
  | _ => exact unsigned

theorem abreast_rightOperand
    (hoperand : ∀ level, AbreastWithin V extra n (Expr.SeenAs V) (operand level) (operand' level))
    (op : BinaryOp) :
    AbreastWithin V extra n (Expr.SeenAs V) (rightOperand operand op) (rightOperand operand' op) := by
  intro c d h hn
  unfold rightOperand
  cases op.isComparison with
  | true => exact abreast_kind h fun _ _ => .ite (fun _ => hoperand _ h hn) fun _ => hoperand _ h hn
  | false => exact abreast_kind h fun _ _ => hoperand _ h hn

theorem abreast_extend
    (hoperand : ∀ level, AbreastWithin V extra n (Expr.SeenAs V) (operand level) (operand' level))
    (level : Nat) : ∀ {bound bound' : Nat} {left left' : Expr} {c d : Cursor}, c.Abreast V extra d →
      c.rest.length ≤ n → c.rest.length ≤ bound → c.rest.length ≤ bound' → left.SeenAs V left' →
        Abreast V extra 0 (Expr.SeenAs V) (extend operand level bound left)
          (extend operand' level bound' left') c d := by
  intro bound
  induction bound with
  | zero =>
    intro _ _ _ _ _ h _ hbound
    exact absurd h.tokens.length_pos (Nat.not_lt.mpr hbound)
  | succ bound ih =>
    intro bound' left left' c d h hn hbound hbound' same
    obtain ⟨bound', rfl⟩ := exists_succ_of_abreast h hbound'
    refine abreast_kind h fun k hk => ?_
    cases hop : k.binaryOp? with
    | none => exact abreast_pure h same
    | some op =>
      refine .ite (fun _ => ?_) fun _ => abreast_pure h same
      have proper : c.kind.isProper = true := by
        rw [hk]
        cases k <;> first | rfl | nomatch hop
      refine (abreast_advance h proper).bind (j := 0) (fun _ _ c' d' _ onward => ?_) |>.loosen
      have := onward.taken.length_le
      refine (abreast_rightOperand hoperand op onward.abreast (by omega)).bind (j := 0)
        (fun right right' c'' d'' sameRight onward' => ?_) |>.loosen
      have := onward'.taken.length_le
      refine ih onward'.abreast (by omega) (by omega) (by omega) ?_
      rw [Expr.SeenAs, Expr.join, Expr.join, Expr.seen, Expr.seen,
        V.merge same.span sameRight.span, same, sameRight]

end Parse

/-! ## Expressions -/

namespace Expr

theorem abreast_parseAt : ∀ {bound bound' : Nat} (level : Nat) {c d : Cursor}, c.Abreast V extra d →
    c.rest.length ≤ bound → c.rest.length ≤ bound' →
      Parse.Abreast V extra 1 (SeenAs V) (parseAt bound level) (parseAt bound' level) c d := by
  intro bound
  induction bound with
  | zero =>
    intro _ _ _ _ h hbound
    exact absurd h.tokens.length_pos (Nat.not_lt.mpr hbound)
  | succ bound ih =>
    intro bound' level c d h hbound hbound'
    obtain ⟨bound', rfl⟩ := Parse.exists_succ_of_abreast h hbound'
    have operands (level : Nat) : Parse.AbreastWithin V extra (c.rest.length - 1) (SeenAs V)
        (parseAt bound level) (parseAt bound' level) :=
      fun h hn => ih level h (by omega) (by omega)
    refine (Parse.abreast_firstOperand h (by omega) (by omega) (by omega) operands level).bind
      (j := 0) fun first first' c' d' same onward => ?_
    have := onward.taken.length_le
    exact Parse.abreast_extend operands level onward.abreast (by omega) (by omega) (by omega) same

/-- From cursors abreast expressions are read that look alike, or reading fails alike. -/
theorem abreast_parse (h : c.Abreast V extra d) :
    Parse.Abreast V extra 1 (SeenAs V) parse parse c d :=
  Parse.abreast_remaining h fun _ _ hn hn' => abreast_parseAt 0 h hn hn'

end Expr

end PageScript
