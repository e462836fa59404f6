import PageScript.Proofs.Syntax.Abreast.Expressions
import PageScript.Syntax.Stmt.Parser

/-!
# Proofs/Syntax/Abreast/Simple — simple statements side by side

The readers of statements on one line: declarations of variables and constants, assignments, calls,
and the fixed forms.  A call without parentheses around its arguments is read twice from the last
opening parenthesis on; the places where that happens are behind the start of the statement, so that
reading has come on all the same.
-/

namespace PageScript

variable {V : Sight} {extra least i j n : Nat} {c d c' d' : Cursor}

namespace Parse

/-! ## Declarations -/

theorem abreast_arrayBound (h : c.Abreast V extra d) :
    Abreast V extra 1 Eq arrayBound arrayBound c d := by
  refine abreast_kind h fun k hk => ?_
  cases k with
  | number value =>
    dsimp only
    cases bound? value with
    | none => exact abreast_expected h _
    | some n => exact abreast_taken h (hk ▸ rfl) rfl
  | _ => exact abreast_expected h _

/-- Items behind commas that are the same on both sides. -/
theorem abreast_commaList_eq {α : Type} {item : Parse α} (h : c.Abreast V extra d)
    (hitem : ∀ {c d : Cursor}, c.Abreast V extra d → Abreast V extra 1 Eq item item c d) :
    Abreast V extra 1 Eq (commaList item) (commaList item) c d := by
  have mapped : Abreast V extra 1 (fun as bs => as.map id = bs.map id) (commaList item)
      (commaList item) c d :=
    abreast_commaList h fun h _ => hitem h
  simpa only [List.map_id] using mapped

theorem abreast_declaredVariable (access : Access) (h : c.Abreast V extra d) :
    Abreast V extra 1 (Stmt.SeenAs V) (declaredVariable access) (declaredVariable access) c d := by
  refine abreast_span h fun s s' hs =>
    (abreast_identifier h).bindSame (j := 0) fun name c' d' onward => ?_
  have declared (bounds : Option (List Nat)) {c d : Cursor} (h : c.Abreast V extra d) :
      Abreast V extra 0 (Stmt.SeenAs V)
        (previous >>= fun p => pure (Stmt.dim (s.merge p) name bounds access))
        (previous >>= fun p => pure (Stmt.dim (s'.merge p) name bounds access)) c d :=
    abreast_previous h fun _ _ hp => abreast_pure h
      (congrArg (Stmt.dim · name bounds access) (V.merge hs hp))
  refine abreast_accept onward.abreast isProper_of_isSymbol (fun c'' d'' _ onward => ?_)
    fun _ => declared none onward.abreast
  refine abreast_kind onward.abreast fun k _ => .ite (fun _ => ?_) fun _ => ?_
  · exact ((abreast_requireSymbol .rparen onward.abreast).bind fun _ _ _ _ _ onward =>
      declared (some []) onward.abreast).loosen
  · refine ((abreast_commaList_eq onward.abreast abreast_arrayBound).bindSame (j := 0)
      fun bounds _ _ onward => ?_).loosen
    exact ((abreast_requireSymbol .rparen onward.abreast).bind fun _ _ _ _ _ onward =>
      declared (some bounds) onward.abreast).loosen

/-- A list of declarations behind a word is one block. -/
theorem abreast_group {item item' : Parse Stmt} {s s' : Span} (hs : s.SeenAs V s')
    (h : c.Abreast V extra d)
    (hitem : AbreastWithin V extra c.rest.length (Stmt.SeenAs V) item item') :
    Abreast V extra 1 (Stmt.SeenAs V)
      (commaList item >>= fun body => previous >>= fun p => pure (.block (s.merge p) body))
      (commaList item' >>= fun body => previous >>= fun p => pure (.block (s'.merge p) body)) c d :=
  (abreast_commaList h hitem).bind fun body body' _ _ same onward =>
    abreast_previous onward.abreast fun _ _ hp => abreast_pure onward.abreast <| by
      rw [← Stmt.seenAll_eq_map, ← Stmt.seenAll_eq_map] at same
      rw [Stmt.SeenAs, Stmt.seen, Stmt.seen, V.merge hs hp, same]

theorem abreast_variableGroup {s s' : Span} (hs : s.SeenAs V s') (access : Access)
    (h : c.Abreast V extra d) :
    Abreast V extra 1 (Stmt.SeenAs V) (variableGroup s access) (variableGroup s' access) c d :=
  abreast_group hs h fun h _ => abreast_declaredVariable access h

theorem abreast_literal (h : c.Abreast V extra d) :
    Abreast V extra 1 Eq literal literal c d := by
  have signed : Abreast V extra 1 Eq (signedNumber >>= fun x => pure (Literal.number x.1))
      (signedNumber >>= fun x => pure (Literal.number x.1)) c d :=
    (abreast_signedNumber h).bind fun _ _ _ _ same onward =>
      abreast_pure onward.abreast (congrArg Literal.number same.1)
  refine abreast_kind h fun k hk => ?_
  cases k with
  | number => exact signed
  | string => exact abreast_taken h (hk ▸ rfl) rfl
  | keyword word =>
    cases word <;> first | exact abreast_expected h _ | exact abreast_taken h (hk ▸ rfl) rfl
  | symbol sign => cases sign <;> first | exact abreast_expected h _ | exact signed
  | _ => exact abreast_expected h _

theorem abreast_constant (h : c.Abreast V extra d) :
    Abreast V extra 1 (Stmt.SeenAs V) constant constant c d := by
  refine abreast_span h fun s s' hs =>
    (abreast_identifier h).bindSame (j := 0) fun name _ _ onward => ?_
  refine (abreast_requireSymbol .eq onward.abreast).bind (j := 0)
    (fun _ _ _ _ _ onward => ?_) |>.loosen
  refine (abreast_literal onward.abreast).bindSame (j := 0)
    (fun value _ _ onward => ?_) |>.loosen
  exact abreast_previous onward.abreast fun _ _ hp => abreast_pure onward.abreast
    (congrArg (Stmt.const · name value) (V.merge hs hp))

theorem abreast_constantGroup {s s' : Span} (hs : s.SeenAs V s') (h : c.Abreast V extra d) :
    Abreast V extra 1 (Stmt.SeenAs V) (constantGroup s) (constantGroup s') c d := by
  refine (abreast_requireKeyword .constWord h).bind (j := 0) fun _ _ _ _ _ onward => ?_
  refine (abreast_commaList onward.abreast fun h _ => abreast_constant h).bind (j := 0)
    (fun found found' c' d' same onward => ?_) |>.loosen
  refine abreast_previous onward.abreast fun p p' hp => ?_
  have merged := V.merge hs hp
  -- A single constant stands for itself.
  match found, found' with
  | [], [] => exact abreast_pure onward.abreast (congrArg (Stmt.block · []) merged)
  | [single], [single'] =>
    refine abreast_pure onward.abreast ?_
    rw [Stmt.SeenAs, Stmt.seen_withSpan, Stmt.seen_withSpan, merged, (List.cons.inj same).1]
  | first :: second :: rest, first' :: second' :: rest' =>
    refine abreast_pure onward.abreast ?_
    rw [← Stmt.seenAll_eq_map, ← Stmt.seenAll_eq_map] at same
    rw [Stmt.SeenAs, Stmt.seen, Stmt.seen, merged, same]
  | [], _ :: _ | _ :: _, [] | [_], _ :: _ :: _ | _ :: _ :: _, [_] =>
    exact absurd (congrArg List.length same) (by simp)

theorem abreast_resized (preserve : Bool) (h : c.Abreast V extra d) :
    Abreast V extra 1 (Stmt.SeenAs V) (resized preserve) (resized preserve) c d := by
  refine abreast_span h fun s s' hs =>
    (abreast_identifier h).bindSame (j := 0) fun name _ _ onward => ?_
  refine (abreast_requireSymbol .lparen onward.abreast).bind (j := 0)
    (fun _ _ _ _ _ onward => ?_) |>.loosen
  refine (abreast_commaList onward.abreast fun h _ => Expr.abreast_parse h).bind (j := 0)
    (fun bounds bounds' _ _ same onward => ?_) |>.loosen
  refine (abreast_requireSymbol .rparen onward.abreast).bind (j := 0)
    (fun _ _ _ _ _ onward => ?_) |>.loosen
  refine abreast_previous onward.abreast fun _ _ hp => abreast_pure onward.abreast ?_
  rw [Stmt.SeenAs, Stmt.seen, Stmt.seen, V.merge hs hp, same]

theorem abreast_redimStatement (h : c.Abreast V extra d) :
    Abreast V extra 1 (Stmt.SeenAs V) redimStatement redimStatement c d := by
  refine (abreast_requireKeyword .reDimWord h).bind (j := 0) fun s s' _ _ hs onward => ?_
  exact abreast_accept onward.abreast isProper_of_isWord
    (fun _ _ _ onward => (abreast_group hs onward.abreast fun h _ => abreast_resized true h).loosen)
    fun _ => (abreast_group hs onward.abreast fun h _ => abreast_resized false h).loosen

/-! ## Assignments and calls -/

/-- The links of a chain that is no part of an expression. -/
theorem abreast_chain {α β : Type} {R : α → β → Prop} {f : Expr × Option Cursor → Parse α}
    {g : Expr × Option Cursor → Parse β} {head head' : Expr}
    (onward : Cursor.Onward V extra 1 c d c' d') (same : head.SeenAs V head')
    (hnext : ∀ chain chain' opening opening' c' d', chain.SeenAs V chain' →
      OpeningsAbreast V extra c d opening opening' → Cursor.Onward V extra 1 c d c' d' →
        Outcomes V extra 1 R c d (f (chain, opening) c') (g (chain', opening') d')) :
    Outcomes V extra 1 R c d
      ((remaining >>= fun bound => links Expr.parse bound head none >>= f) c')
      ((remaining >>= fun bound => links Expr.parse bound head' none >>= g) d') := by
  have chained : Abreast V extra 0 (fun x y => x.1.SeenAs V y.1 ∧ OpeningsAbreast V extra c d x.2 y.2)
      (links Expr.parse c'.rest.length head none) (links Expr.parse d'.rest.length head' none)
      c' d' :=
    abreast_links (fun h _ => Expr.abreast_parse h) onward (Nat.le_succ _) (Nat.le_refl _)
      (onward.abreast.tokens.length_eq ▸ Nat.le_add_right _ _) same .none
  exact chained.bindFrom onward fun x y _ _ same onward => hnext _ _ _ _ _ _ same.1 same.2 onward

/-- What a chain calls, if it ends in arguments. -/
theorem seen_callOfChain (chain : Expr) (endsInArguments : Bool) :
    (callOfChain chain endsInArguments).seen V =
      callOfChain (chain.seen V) endsInArguments := by
  cases chain with
  | call s callee args =>
    match args with
    | [] | _ :: _ :: _ => rfl
    | [.mk value byValue] => cases endsInArguments <;> rfl
  | _ => rfl

theorem seenAs_applied {s s' : Span} (hs : s.SeenAs V s') {callee callee' : Expr}
    (same : callee.SeenAs V callee') {args args' : List Arg}
    (sameArgs : Expr.seenArgs V args = Expr.seenArgs V args') :
    (Stmt.call s (.call s callee args)).SeenAs V (.call s' (.call s' callee' args')) := by
  rw [Stmt.SeenAs, Stmt.seen, Stmt.seen, Expr.seen, Expr.seen, hs, same, sameArgs]

theorem abreast_argumentsOf {callee callee' : Expr} (same : callee.SeenAs V callee')
    (h : c.Abreast V extra d) :
    Abreast V extra 1 (Stmt.SeenAs V) (argumentsOf callee) (argumentsOf callee') c d := by
  refine (abreast_commaList h (abreast_argument fun h _ => Expr.abreast_parse h)).bind (j := 0)
    fun args args' _ _ sameArgs onward => abreast_previous onward.abreast fun _ _ hp => ?_
  rw [← Expr.seenArgs_eq_map, ← Expr.seenArgs_eq_map] at sameArgs
  exact abreast_pure onward.abreast (seenAs_applied (V.merge same.span hp) same sameArgs)

theorem abreast_behindChain {chain chain' : Expr} {opening opening' : Option Cursor}
    (onward : Cursor.Onward V extra 1 c d c' d') (same : chain.SeenAs V chain')
    (sameOpening : OpeningsAbreast V extra c d opening opening') :
    Outcomes V extra 1 (Stmt.SeenAs V) c d (behindChain chain opening c')
      (behindChain chain' opening' d') := by
  -- What is read from a place behind the start is read behind the start.
  have behind {p p' : Parse Stmt} {e e' : Cursor} (onward : Cursor.Onward V extra 1 c d e e')
      (h : Abreast V extra 0 (Stmt.SeenAs V) p p' e e') :
      Outcomes V extra 1 (Stmt.SeenAs V) c d (p e) (p' e') :=
    Outcomes.behind h onward (Nat.le_refl 1)
  have kind := onward.abreast.kind_eq
  cases hassign : c'.kind.isSymbol .eq with
  | true =>
    rw [behindChain_assign hassign, behindChain_assign (kind ▸ hassign)]
    have onward' := Cursor.Onward.advance onward.abreast (isProper_of_isSymbol _ hassign)
    refine behind ((onward.trans onward').mono (by omega)) ?_
    refine ((Expr.abreast_parse onward'.abreast).bind (j := 0)
      fun _ _ _ _ sameValue onward => abreast_pure onward.abreast ?_).loosen
    rw [Stmt.SeenAs, Stmt.seen, Stmt.seen, V.merge same.span sameValue.span, same, sameValue]
  | false =>
    cases hend : c'.kind.endsStatement || c'.kind.isKeyword .elseWord with
    | true =>
      rw [behindChain_call hassign hend, behindChain_call (kind ▸ hassign) (kind ▸ hend)]
      refine .done ?_ onward
      have parens : opening.isSome = opening'.isSome := by cases sameOpening <;> rfl
      rw [Stmt.SeenAs, Stmt.seen, Stmt.seen, seen_callOfChain, seen_callOfChain, same.span, same,
        parens]
    | false =>
      rw [behindChain_arguments hassign hend, behindChain_arguments (kind ▸ hassign) (kind ▸ hend)]
      have whole : Outcomes V extra 1 (Stmt.SeenAs V) c d (argumentsOf chain c')
          (argumentsOf chain' d') :=
        behind onward (abreast_argumentsOf same onward.abreast).loosen
      cases sameOpening with
      | none =>
        cases chain <;> cases chain' <;> exact whole
      | some before =>
        cases chain with
        | call =>
          cases chain' with
          | call =>
            refine behind before (abreast_argumentsOf ?_ before.abreast).loosen
            exact (Expr.call.inj same).2.1
          | _ => nomatch same
        | _ =>
          cases chain' with
          | call => nomatch same
          | _ => exact whole

theorem abreast_assignmentOrCall (h : c.Abreast V extra d) :
    Abreast V extra 1 (Stmt.SeenAs V) assignmentOrCall assignmentOrCall c d := by
  rw [assignmentOrCall_eq]
  exact (abreast_chainHead h).bindFrom (.refl h) fun _ _ _ _ same onward =>
    abreast_chain onward same fun _ _ _ _ _ _ same sameOpening onward =>
      abreast_behindChain onward same sameOpening

theorem abreast_assignmentFrom {s s' : Span} (hs : s.SeenAs V s') (h : c.Abreast V extra d) :
    Abreast V extra 1 (Stmt.SeenAs V) (assignmentFrom s) (assignmentFrom s') c d := by
  refine (abreast_chainHead h).bindFrom (.refl h) fun _ _ _ _ same onward =>
    abreast_chain onward same fun target target' _ _ c' d' same _ onward => ?_
  refine Outcomes.behind (j := 0) (i := 1) ?_ onward (Nat.le_refl 1)
  refine ((abreast_requireSymbol .eq onward.abreast).bind (j := 0)
    fun _ _ _ _ _ onward => ?_).loosen
  refine ((Expr.abreast_parse onward.abreast).bind (j := 0)
    fun _ _ _ _ sameValue onward => abreast_pure onward.abreast ?_).loosen
  rw [Stmt.SeenAs, Stmt.seen, Stmt.seen, V.merge hs sameValue.span, same, sameValue]

theorem abreast_markedAssignment (h : c.Abreast V extra d) (proper : c.kind.isProper = true) :
    Abreast V extra 1 (Stmt.SeenAs V) markedAssignment markedAssignment c d :=
  (abreast_advance h proper).bind (j := 0) fun _ _ _ _ hs onward =>
    (abreast_assignmentFrom hs onward.abreast).loosen

theorem abreast_callStatement (h : c.Abreast V extra d) (proper : c.kind.isProper = true) :
    Abreast V extra 1 (Stmt.SeenAs V) callStatement callStatement c d := by
  refine (abreast_advance h proper).bind (j := 0) fun s s' _ _ hs onward => ?_
  refine Abreast.loosen (i := 1) ?_
  refine (abreast_chainHead onward.abreast).bindFrom (.refl onward.abreast)
    fun _ _ _ _ same onward => abreast_chain onward same fun chain chain' _ _ _ _ same _ onward => ?_
  have merged := V.merge hs same.span
  cases chain with
  | call =>
    cases chain' with
    | call =>
      have same := Expr.call.inj same
      exact .done (seenAs_applied merged same.2.1 same.2.2) onward
    | _ => nomatch same
  | _ =>
    cases chain' with
    | call => nomatch same
    | _ => exact .done (seenAs_applied merged same rfl) onward

/-! ## Fixed forms -/

theorem abreast_exitStatement (h : c.Abreast V extra d) :
    Abreast V extra 1 (Stmt.SeenAs V) exitStatement exitStatement c d := by
  refine (abreast_requireKeyword .exitWord h).bind (j := 0) fun s s' c' d' hs onward => ?_
  have leave (target : ExitTarget) (proper : c'.kind.isProper = true) :
      Abreast V extra 0 (Stmt.SeenAs V)
        (advance >>= fun stop => pure (Stmt.exit (s.merge stop) target))
        (advance >>= fun stop => pure (Stmt.exit (s'.merge stop) target)) c' d' := by
    refine ((abreast_advance onward.abreast proper).bind (j := 0)
      fun _ _ _ _ hstop onward => ?_).loosen
    exact abreast_pure onward.abreast (congrArg (Stmt.exit · target) (V.merge hs hstop))
  refine abreast_kind onward.abreast fun k hk => ?_
  split
  · exact leave _ (hk ▸ rfl)
  · exact leave _ (hk ▸ rfl)
  · exact leave _ (hk ▸ rfl)
  · exact leave _ (hk ▸ rfl)
  · exact leave _ (hk ▸ rfl)
  · exact abreast_expected onward.abreast _

theorem abreast_optionStatement (h : c.Abreast V extra d) :
    Abreast V extra 1 (Stmt.SeenAs V) optionStatement optionStatement c d := by
  refine (abreast_requireKeyword .optionWord h).bind (j := 0) fun s s' _ _ hs onward => ?_
  have switched (on : Bool) {c d : Cursor} (h : c.Abreast V extra d) :
      Abreast V extra 0 (Stmt.SeenAs V)
        (previous >>= fun p => pure (Stmt.optionExplicit (s.merge p) on))
        (previous >>= fun p => pure (Stmt.optionExplicit (s'.merge p) on)) c d :=
    abreast_previous h fun _ _ hp => abreast_pure h
      (congrArg (Stmt.optionExplicit · on) (V.merge hs hp))
  refine (abreast_requireWord "explicit" onward.abreast).bind (j := 0)
    (fun _ _ _ _ _ onward => ?_) |>.loosen
  refine abreast_accept onward.abreast isProper_of_isWord
    (fun _ _ _ onward => switched false onward.abreast) fun _ => ?_
  exact abreast_accept onward.abreast isProper_of_isWord
    (fun _ _ _ onward => switched true onward.abreast) fun _ => switched true onward.abreast

theorem isProper_of_isZero (kind : TokenKind) (h : isZero kind = true) : kind.isProper = true := by
  cases kind with
  | number => rfl
  | _ => nomatch h

theorem abreast_onErrorStatement (h : c.Abreast V extra d) :
    Abreast V extra 1 (Stmt.SeenAs V) onErrorStatement onErrorStatement c d := by
  refine (abreast_requireWord "on" h).bind (j := 0) fun s s' _ _ hs onward => ?_
  have policy (kind : ErrorPolicy) {c d : Cursor} (h : c.Abreast V extra d) :
      Abreast V extra 0 (Stmt.SeenAs V)
        (previous >>= fun p => pure (Stmt.onError (s.merge p) kind))
        (previous >>= fun p => pure (Stmt.onError (s'.merge p) kind)) c d :=
    abreast_previous h fun _ _ hp => abreast_pure h
      (congrArg (Stmt.onError · kind) (V.merge hs hp))
  refine (abreast_requireWord "error" onward.abreast).bind (j := 0)
    (fun _ _ _ _ _ onward => ?_) |>.loosen
  refine abreast_accept onward.abreast isProper_of_isWord (fun _ _ _ onward => ?_) fun _ => ?_
  · exact ((abreast_requireKeyword .nextWord onward.abreast).bind fun _ _ _ _ _ onward =>
      policy _ onward.abreast).loosen
  · refine ((abreast_requireWord "goto" onward.abreast).bind (j := 0)
      fun _ _ _ _ _ onward => ?_).loosen
    exact ((abreast_require onward.abreast isProper_of_isZero).bind fun _ _ _ _ _ onward =>
      policy _ onward.abreast).loosen

end Parse

end PageScript
