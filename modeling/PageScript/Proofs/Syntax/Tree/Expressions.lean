import PageScript.Proofs.Syntax.Tree.Readers

/-!
# Proofs/Syntax/Tree/Expressions — what is read as an expression nests

One lemma for each reader of `Syntax/Expr/Parser`: what it reads lies between the last token taken
before and the last token taken by it, and so do its parts in it.
-/

namespace PageScript

namespace Parse

variable {hi bound level : Nat} {c d : Cursor} {expression : Parse Expr} {operand : Nat → Parse Expr}

/-- The number behind a sign or none. -/
theorem yields_numberBehind {apply : Float → Float} {start : Span} {lo : Nat} (h : c.Sound hi)
    (hstart : start.At c) (le : lo ≤ start.start) :
    Yields (numberBehind apply start) c fun x d =>
      c.Passes hi d ∧ x.2.Lies lo d.previous.stop := by
  refine yields_kind ?_
  cases hk : c.kind with
  | number =>
    refine (yields_advance h (hk ▸ rfl)).bind fun _ d ⟨took, hstop⟩ => yields_pure ⟨took.toPasses, ?_⟩
    exact hstop ▸ (took.upto hstart).lies took.sound le
  | _ => exact yields_expected _

theorem yields_signedNumber (h : c.Sound hi) : Yields signedNumber c fun x d =>
    c.Passes hi d ∧ x.2.Lies c.previous.stop d.previous.stop := by
  have signed (apply : Float → Float) {d : Cursor} (took : Took hi c d) :
      Yields (numberBehind apply c.span) d fun x e =>
        c.Passes hi e ∧ x.2.Lies c.previous.stop e.previous.stop := by
    have upto := took.upto (Span.at_span c)
    exact (yields_numberBehind took.sound (upto.at took.sound) h.span.start).mono
      fun _ _ ⟨passes, lies⟩ => ⟨took.toPasses.trans passes, lies⟩
  refine yields_span (yields_accept h isEnd_of_isSymbol (fun _ took => signed _ took) ?_)
  refine yields_accept h isEnd_of_isSymbol (fun _ took => signed id took) ?_
  exact yields_numberBehind h (Span.at_span c) h.span.start

theorem reads_chainHead : ReadsIn hi chainHead Expr.Lies := by
  intro c h
  refine yields_span (yields_kind ?_)
  cases hk : c.kind with
  | ident =>
    refine (yields_advance h (hk ▸ rfl)).bind fun _ d ⟨took, _⟩ => yields_pure ⟨took.toPasses, ?_⟩
    exact .leaf (took.span) rfl
  | symbol sign =>
    cases sign with
    | dot =>
      refine (yields_advance h (hk ▸ rfl)).bind fun _ d ⟨dot, _⟩ => ?_
      refine (yields_memberName dot.sound).bind fun _ e took => yields_previous (yields_pure ?_)
      have upto := (dot.upto (Span.at_span c)).on (took.keeps dot.sound)
      exact ⟨dot.toPasses.trans took.toPasses, .leaf (upto.lies took.sound h.span.start) rfl⟩
    | _ => exact yields_expected _
  | _ => exact yields_expected _

theorem reads_argument (hexpression : ReadsIn hi expression Expr.Lies) :
    ReadsIn hi (argument expression) Arg.Lies :=
  fun h => yields_get ((hexpression h).bind fun _ _ read => yields_get (yields_pure read))

/-! ## Chains -/

/-- If a chain ends in arguments, its callee ends before their opening parenthesis. -/
def Opens (hi : Nat) (c : Cursor) (chain : Expr) (opening : Option Cursor) : Prop :=
  ∀ before, opening = some before → c.Passes hi before ∧ ∃ s callee args,
    chain = .call s callee args ∧ callee.Lies c.previous.stop before.previous.stop

theorem opens_none {chain : Expr} : Opens hi c chain none := nofun

theorem yields_links (hexpression : ReadsIn hi expression Expr.Lies) :
    ∀ {bound : Nat} {chain : Expr} {opening : Option Cursor} {d : Cursor}, c.Passes hi d →
      chain.Lies c.previous.stop d.previous.stop → Opens hi c chain opening →
        Yields (links expression bound chain opening) d fun x e =>
          c.Passes hi e ∧ x.1.Lies c.previous.stop e.previous.stop ∧ Opens hi c x.1 x.2 := by
  intro bound
  induction bound with
  | zero => exact fun passes lies opens => yields_pure ⟨passes, lies, opens⟩
  | succ bound ih =>
    intro chain opening d passes lies opens
    have stop : Yields (pure (chain, opening)) d fun x e =>
        c.Passes hi e ∧ x.1.Lies c.previous.stop e.previous.stop ∧ Opens hi c x.1 x.2 :=
      yields_pure ⟨passes, lies, opens⟩
    unfold links
    refine yields_get ?_
    split
    · rename_i hk
      refine .ite (fun _ => ?_) fun _ => stop
      refine (yields_advance passes.sound (hk ▸ rfl)).bind fun _ _ ⟨dot, _⟩ => ?_
      refine (yields_memberName dot.sound).bind fun _ e name => yields_previous ?_
      have upto : chain.span.Upto e := lies.here.upto (dot.toPasses.trans name.toPasses)
      obtain ⟨first, -, last, -⟩ := chain.span.le_merge e.previous
      exact ih ((passes.trans dot.toPasses).trans name.toPasses)
        (.member (upto.lies name.sound lies.here.start) (lies.self.mono first last)) opens_none
    · rename_i hk
      have further {args : List Arg} {d₁ d₂ : Cursor} (paren : Took hi d d₁) (keeps : d₁.Keeps hi d₂)
          (hargs : ∀ arg ∈ args, arg.Lies d₁.previous.stop d₂.previous.stop) :
          Yields (do
            let _ ← requireSymbol .rparen
            let s := chain.span.merge (← previous)
            links expression bound (.call s chain args) (some d)) d₂ fun x e =>
              c.Passes hi e ∧ x.1.Lies c.previous.stop e.previous.stop ∧ Opens hi c x.1 x.2 := by
        refine (yields_requireSymbol .rparen keeps.sound).bind fun _ e ⟨close, _⟩ => yields_previous ?_
        have behind : d.Passes hi e := (paren.toPasses.on keeps).trans close.toPasses
        have upto : chain.span.Upto e := lies.here.upto behind
        obtain ⟨first, -, last, -⟩ := chain.span.le_merge e.previous
        refine ih (passes.trans behind) (.call (upto.lies close.sound lies.here.start)
          (lies.self.mono first last) fun arg harg => (hargs arg harg).mono ?_ ?_) ?_
        · exact Nat.le_trans first (Nat.le_trans lies.here.order
            (Nat.le_trans lies.here.stop paren.stop_le))
        · exact Nat.le_trans close.stop_le (upto.merge ▸ Nat.le_refl _)
        · rintro _ ⟨⟩
          exact ⟨passes, _, _, _, rfl, lies⟩
      refine (yields_advance passes.sound (hk ▸ rfl)).bind fun _ _ ⟨paren, _⟩ => yields_get ?_
      refine .ite (fun _ => further paren paren.sound.keeps nofun) fun _ => ?_
      refine (yields_commaList (reads_argument hexpression) paren.sound).bind
        fun _ _ ⟨more, row, _⟩ => further paren (more.keeps paren.sound) ?_
      exact row.forall_mem Expr.Lies.mono
    · exact stop

theorem yields_createdPath : ∀ (bound : Nat) {c : Cursor}, c.Sound hi →
    Yields (createdPath bound) c fun _ d => c.Keeps hi d := by
  intro bound
  induction bound with
  | zero => exact fun h => yields_pure h.keeps
  | succ bound ih =>
    intro c h
    refine yields_accept h isEnd_of_isSymbol (fun _ dot => ?_) (yields_pure h.keeps)
    refine (yields_memberName dot.sound).bind fun _ _ name => ?_
    refine (ih name.sound).bind fun _ _ keeps => yields_pure ?_
    exact ((dot.keeps h).trans (name.keeps dot.sound)).trans keeps

/-! ## Operands and operators -/

theorem reads_primary (hexpression : ReadsIn hi expression Expr.Lies) :
    ReadsIn hi (primary expression bound) Expr.Lies := by
  intro c h
  -- Whatever an operand starts with, a chain may follow.
  have chain {e : Expr} {d : Cursor} (passes : c.Passes hi d)
      (lies : e.Lies c.previous.stop d.previous.stop) :
      Yields (links expression bound e none >>= fun x => pure x.1) d fun e d =>
        c.Passes hi d ∧ e.Lies c.previous.stop d.previous.stop :=
    (yields_links hexpression passes lies opens_none).bind fun _ _ ⟨passes, lies, _⟩ =>
      yields_pure ⟨passes, lies⟩
  have head : Yields (chainHead >>= fun head => links expression bound head none >>=
      fun x => pure x.1) c fun e d => c.Passes hi d ∧ e.Lies c.previous.stop d.previous.stop :=
    (reads_chainHead h).bind fun _ _ ⟨passes, lies⟩ => chain passes lies
  have signed : Yields (signedNumber >>= fun x => pure (Expr.literal x.2 (.number x.1))) c
      fun e d => c.Passes hi d ∧ e.Lies c.previous.stop d.previous.stop :=
    (yields_signedNumber h).bind fun _ _ ⟨passes, lies⟩ => yields_pure ⟨passes, .leaf lies rfl⟩
  refine yields_span (yields_kind ?_)
  cases hvalue : c.kind.literal? with
  | some value =>
    have inside : c.kind.isEnd = false := by
      cases hk : c.kind <;> first | rfl | (rw [hk] at hvalue; nomatch hvalue)
    refine (yields_advance h inside).bind fun _ d ⟨took, _⟩ => yields_pure ⟨took.toPasses, ?_⟩
    exact .leaf (took.span) rfl
  | none =>
    cases hk : c.kind with
    | ident => exact head
    | symbol sign =>
      cases sign with
      | dot => exact head
      | minus | plus => exact signed
      | lparen =>
        refine (yields_advance h (hk ▸ rfl)).bind fun _ d ⟨paren, _⟩ => ?_
        refine (hexpression paren.sound).bind fun inner d' ⟨passes, lies⟩ => ?_
        refine (yields_requireSymbol .rparen passes.sound).bind fun _ e ⟨close, _⟩ =>
          yields_previous ?_
        have behind : d.Passes hi e := passes.trans close.toPasses
        have upto : c.span.Upto e := (paren.upto (Span.at_span c)).on (behind.keeps paren.sound)
        refine chain (paren.toPasses.trans behind)
          (.withSpan (lies.mono ?_ ?_) (upto.lies close.sound h.span.start))
        · rw [upto.merge, ← paren.previous]
          exact paren.sound.order
        · rw [upto.merge]
          exact close.stop_le
      | _ => exact yields_expected _
    | keyword word =>
      cases word with
      | newWord =>
        refine (yields_advance h (hk ▸ rfl)).bind fun _ d ⟨new, _⟩ => ?_
        refine (yields_identifier new.sound).bind fun _ d' name => ?_
        refine (yields_createdPath bound name.sound).bind fun _ e path =>
          yields_previous (yields_pure ?_)
        have behind : d.Passes hi e := name.toPasses.on path
        have upto : c.span.Upto e := (new.upto (Span.at_span c)).on (behind.keeps new.sound)
        exact ⟨new.toPasses.trans behind, .leaf (upto.lies path.sound h.span.start) rfl⟩
      | _ => exact yields_expected _
    | _ => exact yields_expected _

theorem reads_firstOperand (hoperand : ∀ level, ReadsIn hi (operand level) Expr.Lies) :
    ReadsIn hi (firstOperand operand bound level) Expr.Lies := by
  intro c h
  have unsigned : Yields (primary (operand 0) bound) c fun e d =>
      c.Passes hi d ∧ e.Lies c.previous.stop d.previous.stop :=
    reads_primary (hoperand 0) h
  have unary (op : UnaryOp) (level : Nat) (inside : c.kind.isEnd = false) :
      Yields (advance >>= fun s => operand level >>= fun e =>
        pure (Expr.unary (s.merge e.span) op e)) c
          fun e d => c.Passes hi d ∧ e.Lies c.previous.stop d.previous.stop := by
    refine (yields_advance h inside).bind fun s _ ⟨sign, hs⟩ => ?_
    refine (hoperand level sign.sound).bind fun e _ ⟨passes, lies⟩ => yields_pure ?_
    obtain ⟨-, first, -, last⟩ := s.le_merge e.span
    exact ⟨sign.toPasses.trans passes,
      .unary (Span.Lies.merge (hs ▸ sign.lies) lies.here) (lies.self.mono first last)⟩
  refine yields_get ?_
  cases hk : c.kind with
  | symbol sign =>
    cases sign with
    | minus => exact .ite (fun _ => unsigned) fun _ => unary .neg _ (hk ▸ rfl)
    | plus =>
      refine .ite (fun _ => unsigned) fun _ => ?_
      refine (yields_advance h (hk ▸ rfl)).bind fun _ _ ⟨sign, _⟩ => ?_
      exact (hoperand _ sign.sound).mono fun _ _ ⟨passes, lies⟩ =>
        ⟨sign.toPasses.trans passes, lies.mono sign.stop_le (Nat.le_refl _)⟩
    | _ => exact unsigned
  | keyword word =>
    cases word with
    | notWord => exact .ite (fun _ => unary .not _ (hk ▸ rfl)) fun _ => unsigned
    | _ => exact unsigned
  | _ => exact unsigned

theorem reads_rightOperand (hoperand : ∀ level, ReadsIn hi (operand level) Expr.Lies)
    (op : BinaryOp) : ReadsIn hi (rightOperand operand op) Expr.Lies := by
  intro c h
  unfold rightOperand
  cases op.isComparison with
  | true => exact yields_kind (.ite (fun _ => hoperand _ h) fun _ => hoperand _ h)
  | false => exact yields_kind (hoperand _ h)

theorem yields_extend (hoperand : ∀ level, ReadsIn hi (operand level) Expr.Lies) :
    ∀ {bound : Nat} {left : Expr} {d : Cursor}, c.Passes hi d →
      left.Lies c.previous.stop d.previous.stop →
        Yields (extend operand level bound left) d fun e d =>
          c.Passes hi d ∧ e.Lies c.previous.stop d.previous.stop := by
  intro bound
  induction bound with
  | zero => exact fun passes lies => yields_pure ⟨passes, lies⟩
  | succ bound ih =>
    intro left d passes lies
    refine yields_kind ?_
    cases hop : d.kind.binaryOp? with
    | none => exact yields_pure ⟨passes, lies⟩
    | some op =>
      refine .ite (fun _ => ?_) fun _ => yields_pure ⟨passes, lies⟩
      have inside : d.kind.isEnd = false := by
        cases hk : d.kind <;> first | rfl | (rw [hk] at hop; nomatch hop)
      refine (yields_advance passes.sound inside).bind fun _ _ ⟨sign, _⟩ => ?_
      refine (reads_rightOperand hoperand op sign.sound).bind fun _ _ ⟨further, right⟩ => ?_
      exact ih ((passes.trans sign.toPasses).trans further)
        (lies.join (right.mono sign.stop_le (Nat.le_refl _)))

end Parse

/-! ## Expressions -/

namespace Expr

variable {hi : Nat}

theorem reads_parseAt : ∀ bound level, Parse.ReadsIn hi (parseAt bound level) Lies
  | 0, _ => fun _ => Parse.yields_failAt _
  | bound + 1, _ => fun h =>
    (Parse.reads_firstOperand (reads_parseAt bound) h).bind fun _ _ ⟨passes, lies⟩ =>
      Parse.yields_extend (reads_parseAt bound) passes lies

/-- **What is read as an expression nests**, between the tokens that it was read from. -/
theorem reads_parse : Parse.ReadsIn hi parse Lies :=
  fun h => Parse.yields_remaining (reads_parseAt _ 0 h)

end Expr

end PageScript
