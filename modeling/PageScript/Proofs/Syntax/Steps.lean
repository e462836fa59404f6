import PageScript.Syntax.Stmt.Parser

/-!
# Proofs/Syntax/Steps — what the readers do with the tokens in front of them

One equation for each way in which a reader of `Syntax/Expr/Parser`, or of a statement that starts
with a name, can go on, given the kinds of the tokens at the cursor.  What reads further stays as a
reader on the right-hand side.  Readers that go on alike behind several starts are named.
-/

namespace PageScript

/-- The name that a token is where a member is named; reserved words are no exception there. -/
def TokenKind.memberName? : TokenKind → Option Name
  | .ident name => some name
  | .keyword k => some (Name.ofString k.spelling)
  | _ => none

theorem TokenKind.isSymbol_iff {kind : TokenKind} {s : Symbol} :
    kind.isSymbol s = true ↔ kind = .symbol s := by
  cases kind with
  | symbol s' =>
    rw [isSymbol, beq_iff_eq, symbol.injEq]
    exact eq_comm
  | _ => exact ⟨nofun, nofun⟩

theorem TokenKind.isKeyword_iff {kind : TokenKind} {k : Keyword} :
    kind.isKeyword k = true ↔ kind = .keyword k := by
  cases kind with
  | keyword k' =>
    rw [isKeyword, beq_iff_eq, keyword.injEq]
    exact eq_comm
  | _ => exact ⟨nofun, nofun⟩

theorem Cursor.advance_cons {t : Token} {ts : List Token} {p : Span} (h : t.kind.isEnd = false) :
    (Cursor.mk (t :: ts) p).advance = ⟨ts, t.span⟩ :=
  if_neg (h ▸ Bool.false_ne_true)

theorem Cursor.kind_advance {c : Cursor} (h : c.kind.isEnd = false) : c.advance.kind = c.nextKind := by
  obtain ⟨ts, p⟩ := c
  match ts with
  | [] => rfl
  | [t] => rw [Cursor.advance_cons h]; rfl
  | t :: u :: ts => rw [Cursor.advance_cons h]; rfl

namespace Parse

variable {α β : Type} {c d : Cursor} {t u : Token} {ts us : List Token} {p q : Span}
  {name : Name} {names : List Name} {e chain : Expr} {expression : Parse Expr}
  {operand : Nat → Parse Expr} {opening : Option Cursor} {bound level : Nat}

theorem bind_of_ok {m : Parse α} {f : α → Parse β} {a : α} (h : m c = .ok (a, d)) :
    (m >>= f) c = f a d := by
  change (Bind.bind (m c) fun p => f p.1 p.2) = _
  rw [h]
  rfl

theorem exists_of_bind {m : Parse α} {f : α → Parse β} {r : β} (h : (m >>= f) c = .ok (r, d)) :
    ∃ a e, m c = .ok (a, e) ∧ f a e = .ok (r, d) := by
  change (Bind.bind (m c) fun q => f q.1 q.2) = _ at h
  cases hm : m c with
  | error => rw [hm] at h; nomatch h
  | ok q => rw [hm] at h; exact ⟨q.1, q.2, rfl, h⟩

/-- What follows a reader depends on what the reader does only. -/
theorem bind_congr_run {m m' : Parse α} {f : α → Parse β} (h : m c = m' d) :
    (m >>= f) c = (m' >>= f) d := by
  change (Bind.bind (m c) fun p => f p.1 p.2) = Bind.bind (m' d) fun p => f p.1 p.2
  rw [h]

theorem kind_run (c : Cursor) : kind c = .ok (c.kind, c) := rfl

theorem get_run (c : Cursor) : (get : Parse Cursor) c = .ok (c, c) := rfl

theorem remaining_run (c : Cursor) : remaining c = .ok (c.rest.length, c) := rfl

theorem accept_yes {test : TokenKind → Bool} (h : test c.kind = true) :
    accept test c = .ok (true, c.advance) :=
  if_pos h

theorem accept_no {test : TokenKind → Bool} (h : test c.kind = false) :
    accept test c = .ok (false, c) :=
  if_neg (h ▸ Bool.false_ne_true)

theorem advance_cons (h : t.kind.isEnd = false) :
    advance ⟨t :: ts, p⟩ = .ok (t.span, ⟨ts, t.span⟩) := by
  change Except.ok (t.span, (Cursor.mk (t :: ts) p).advance) = _
  rw [Cursor.advance_cons h]

theorem memberName_cons (h : t.kind.memberName? = some name) :
    memberName ⟨t :: ts, p⟩ = .ok (name, ⟨ts, t.span⟩) := by
  obtain ⟨kind, span, spaced, adjacent⟩ := t
  cases kind with
  | ident n => cases h; rfl
  | keyword k => cases h; rfl
  | _ => cases h

theorem requireSymbol_cons {s : Symbol} (h : t.kind = .symbol s) :
    requireSymbol s ⟨t :: ts, p⟩ = .ok (t.span, ⟨ts, t.span⟩) := by
  obtain ⟨kind, span, spaced, adjacent⟩ := t
  subst h
  cases s <;> rfl

theorem acceptSymbol_cons {s : Symbol} (h : t.kind = .symbol s) :
    acceptSymbol s ⟨t :: ts, p⟩ = .ok (true, ⟨ts, t.span⟩) := by
  obtain ⟨kind, span, spaced, adjacent⟩ := t
  subst h
  cases s <;> rfl

theorem acceptSymbol_of_ne {s : Symbol} (h : c.kind ≠ .symbol s) :
    acceptSymbol s c = .ok (false, c) :=
  if_neg fun h' => h (TokenKind.isSymbol_iff.mp h')

/-! ## Chains -/

theorem links_member (ht : t.kind = .symbol .dot) (touching : t.adjacent = true)
    (hu : u.kind.memberName? = some name) :
    links expression (bound + 1) chain opening ⟨t :: u :: ts, p⟩ =
      links expression bound (.member (chain.span.merge u.span) chain name) none ⟨ts, u.span⟩ := by
  obtain ⟨kind, span, spaced, adjacent⟩ := t
  subst ht touching
  change (memberName >>= fun name => previous >>= fun s =>
    links expression bound (.member (chain.span.merge s) chain name) none) ⟨u :: ts, span⟩ = _
  rw [bind_of_ok (memberName_cons hu)]
  rfl

theorem links_apply (ht : t.kind = .symbol .lparen) (hu : u.kind = .symbol .rparen)
    (touching : u.adjacent = true) :
    links expression (bound + 1) chain opening ⟨t :: u :: ts, p⟩ =
      links expression bound (.call (chain.span.merge u.span) chain []) (some ⟨t :: u :: ts, p⟩)
        ⟨ts, u.span⟩ := by
  obtain ⟨kind, span, spaced, adjacent⟩ := t
  obtain ⟨kind, span, spaced, adjacent⟩ := u
  subst ht hu touching
  rfl

theorem links_call {args : List Arg} (ht : t.kind = .symbol .lparen)
    (hts : (Cursor.mk ts t.span).kind ≠ .symbol .rparen)
    (hargs : commaList (argument expression) ⟨ts, t.span⟩ = .ok (args, ⟨u :: us, q⟩))
    (hu : u.kind = .symbol .rparen) :
    links expression (bound + 1) chain opening ⟨t :: ts, p⟩ =
      links expression bound (.call (chain.span.merge u.span) chain args) (some ⟨t :: ts, p⟩)
        ⟨us, u.span⟩ := by
  obtain ⟨kind, span, spaced, adjacent⟩ := t
  subst ht
  have some_arg : ((Cursor.mk ts span).kind.isSymbol .rparen &&
      (Cursor.mk ts span).isAdjacent) = false := by
    rw [Bool.and_eq_false_iff]
    exact .inl (Bool.eq_false_iff.mpr fun h => hts (TokenKind.isSymbol_iff.mp h))
  change (if (Cursor.mk ts span).kind.isSymbol .rparen && (Cursor.mk ts span).isAdjacent then _ else
    commaList (argument expression) >>= fun args => requireSymbol .rparen >>= fun _ =>
      previous >>= fun s =>
        links expression bound (.call (chain.span.merge s) chain args) (some _)) ⟨ts, span⟩ = _
  rw [some_arg, if_neg Bool.false_ne_true, bind_of_ok hargs, bind_of_ok (requireSymbol_cons hu)]
  rfl

/-- A chain ends before anything but arguments and points. -/
theorem links_stop (hparen : (Cursor.mk ts p).kind ≠ .symbol .lparen)
    (hdot : (Cursor.mk ts p).kind ≠ .symbol .dot) :
    links expression bound chain opening ⟨ts, p⟩ = .ok ((chain, opening), ⟨ts, p⟩) := by
  cases bound with
  | zero => rfl
  | succ bound =>
    cases ts with
    | nil => rfl
    | cons t ts =>
      obtain ⟨kind, span, spaced, adjacent⟩ := t
      cases kind with
      | symbol s =>
        cases s with
        | lparen => exact absurd rfl hparen
        | dot => exact absurd rfl hdot
        | _ => rfl
      | _ => rfl

theorem createdPath_cons (ht : t.kind = .symbol .dot) (hu : u.kind.memberName? = some name)
    (h : createdPath bound ⟨ts, u.span⟩ = .ok (names, c)) :
    createdPath (bound + 1) ⟨t :: u :: ts, p⟩ = .ok (name :: names, c) := by
  obtain ⟨kind, span, spaced, adjacent⟩ := t
  subst ht
  change (memberName >>= fun name => createdPath bound >>= fun names => pure (name :: names))
    ⟨u :: ts, span⟩ = _
  rw [bind_of_ok (memberName_cons hu), bind_of_ok h]
  rfl

theorem createdPath_stop (h : (Cursor.mk ts p).kind ≠ .symbol .dot) :
    createdPath bound ⟨ts, p⟩ = .ok ([], ⟨ts, p⟩) := by
  cases bound with
  | zero => rfl
  | succ bound =>
    change (acceptSymbol .dot >>= fun more => if more then _ else _) _ = _
    rw [bind_of_ok (acceptSymbol_of_ne h)]
    rfl

/-! ## Operands -/

theorem primary_literal {value : Literal} (h : t.kind.literal? = some value) :
    primary expression bound ⟨t :: ts, p⟩ = .ok (.literal t.span value, ⟨ts, t.span⟩) := by
  obtain ⟨kind, span, spaced, adjacent⟩ := t
  cases kind with
  | keyword k => cases k <;> first | (cases h; rfl) | cases h
  | number x => cases h; rfl
  | string x => cases h; rfl
  | _ => cases h

theorem primary_negative {x : Float} (ht : t.kind = .symbol .minus) (hu : u.kind = .number x) :
    primary expression bound ⟨t :: u :: ts, p⟩ =
      .ok (.literal (t.span.merge u.span) (.number (-x)), ⟨ts, u.span⟩) := by
  obtain ⟨kind, span, spaced, adjacent⟩ := t
  obtain ⟨kind, span, spaced, adjacent⟩ := u
  subst ht hu
  rfl

theorem primary_ident (ht : t.kind = .ident name) :
    primary expression bound ⟨t :: ts, p⟩ =
      (links expression bound (.var t.span name) none >>= fun r => pure r.1) ⟨ts, t.span⟩ := by
  obtain ⟨kind, span, spaced, adjacent⟩ := t
  subst ht
  rfl

theorem primary_dot (ht : t.kind = .symbol .dot) (hu : u.kind.memberName? = some name) :
    primary expression bound ⟨t :: u :: ts, p⟩ =
      (links expression bound (.withMember (t.span.merge u.span) name) none >>= fun r => pure r.1)
        ⟨ts, u.span⟩ := by
  obtain ⟨kind, span, spaced, adjacent⟩ := t
  subst ht
  have head : chainHead ⟨⟨.symbol .dot, span, spaced, adjacent⟩ :: u :: ts, p⟩ =
      .ok (.withMember (span.merge u.span) name, ⟨ts, u.span⟩) := by
    change (memberName >>= fun name => previous >>= fun s =>
      pure (Expr.withMember (span.merge s) name)) ⟨u :: ts, span⟩ = _
    rw [bind_of_ok (memberName_cons hu)]
    rfl
  change (chainHead >>= fun head => links expression bound head none >>= fun r => pure r.1) _ = _
  rw [bind_of_ok head]

theorem primary_new (ht : t.kind = .keyword .newWord) (hu : u.kind = .ident name)
    (h : createdPath bound ⟨ts, u.span⟩ = .ok (names, c)) :
    primary expression bound ⟨t :: u :: ts, p⟩ =
      .ok (.create (t.span.merge c.previous) (name :: names), c) := by
  obtain ⟨kind, span, spaced, adjacent⟩ := t
  obtain ⟨kind, uspan, spaced, adjacent⟩ := u
  subst ht hu
  change (createdPath bound >>= fun further => previous >>= fun s =>
    pure (Expr.create (span.merge s) (name :: further))) ⟨ts, uspan⟩ = _
  rw [bind_of_ok h]
  rfl

theorem primary_parens (ht : t.kind = .symbol .lparen)
    (h : expression ⟨ts, t.span⟩ = .ok (e, ⟨u :: us, q⟩)) (hu : u.kind = .symbol .rparen) :
    primary expression bound ⟨t :: ts, p⟩ =
      (links expression bound (e.withSpan (t.span.merge u.span)) none >>= fun r => pure r.1)
        ⟨us, u.span⟩ := by
  obtain ⟨kind, span, spaced, adjacent⟩ := t
  subst ht
  change (expression >>= fun inner => requireSymbol .rparen >>= fun _ => previous >>= fun s =>
    links expression bound (inner.withSpan (span.merge s)) none >>= fun r => pure r.1)
      ⟨ts, span⟩ = _
  rw [bind_of_ok h, bind_of_ok (requireSymbol_cons hu)]
  rfl

/-! ## Operators -/

theorem firstOperand_not (ht : t.kind = .keyword .notWord) (hlevel : level ≤ UnaryOp.not.strength) :
    firstOperand operand bound level ⟨t :: ts, p⟩ =
      (operand UnaryOp.not.strength >>= fun e => pure (.unary (t.span.merge e.span) .not e))
        ⟨ts, t.span⟩ := by
  obtain ⟨kind, span, spaced, adjacent⟩ := t
  subst ht
  change (if level ≤ UnaryOp.not.strength then _ else _ : Parse Expr) _ = _
  rw [if_pos hlevel]
  rfl

/-- A minus that no number follows is an operator. -/
theorem firstOperand_neg (ht : t.kind = .symbol .minus)
    (hts : ∀ x, (Cursor.mk ts t.span).kind ≠ .number x) :
    firstOperand operand bound level ⟨t :: ts, p⟩ =
      (operand (signedLevel level) >>= fun e => pure (.unary (t.span.merge e.span) .neg e))
        ⟨ts, t.span⟩ := by
  obtain ⟨kind, span, spaced, adjacent⟩ := t
  subst ht
  cases ts with
  | nil => rfl
  | cons u ts =>
    obtain ⟨kind, uspan, spaced, adjacent⟩ := u
    cases kind with
    | number x => exact absurd rfl (hts x)
    | _ => rfl

/-- What no operator starts is an operand on its own. -/
theorem firstOperand_primary (hnot : t.kind ≠ .keyword .notWord) (hminus : t.kind ≠ .symbol .minus)
    (hplus : t.kind ≠ .symbol .plus) :
    firstOperand operand bound level ⟨t :: ts, p⟩ = primary (operand 0) bound ⟨t :: ts, p⟩ := by
  obtain ⟨kind, span, spaced, adjacent⟩ := t
  cases kind with
  | keyword k =>
    cases k with
    | notWord => exact absurd rfl hnot
    | _ => rfl
  | symbol s =>
    cases s with
    | minus => exact absurd rfl hminus
    | plus => exact absurd rfl hplus
    | _ => rfl
  | _ => rfl

/-- A minus before a number belongs to it. -/
theorem firstOperand_negative {x : Float} (ht : t.kind = .symbol .minus) (hu : u.kind = .number x) :
    firstOperand operand bound level ⟨t :: u :: ts, p⟩ =
      primary (operand 0) bound ⟨t :: u :: ts, p⟩ := by
  obtain ⟨kind, span, spaced, adjacent⟩ := t
  obtain ⟨kind, span, spaced, adjacent⟩ := u
  subst ht hu
  rfl

/-- Only behind a comparison is `not` read at its own level. -/
theorem rightOperand_of_ne {op : BinaryOp}
    (h : op.isComparison = true → c.kind ≠ .keyword .notWord) :
    rightOperand operand op c = operand (op.strength + 1) c := by
  have other : (op.isComparison && c.kind.isKeyword .notWord) = false := by
    rw [Bool.eq_false_iff]
    intro h'
    obtain ⟨comparison, found⟩ := (Bool.and_eq_true _ _).mp h'
    exact h comparison (TokenKind.isKeyword_iff.mp found)
  change (if op.isComparison && c.kind.isKeyword .notWord then _ else _ : Parse Expr) c = _
  rw [other, if_neg Bool.false_ne_true]

theorem extend_cons {op : BinaryOp} {right : Expr} (ht : t.kind.binaryOp? = some op)
    (hlevel : level ≤ op.strength)
    (h : rightOperand operand op ⟨ts, t.span⟩ = .ok (right, d)) :
    extend operand level (bound + 1) e ⟨t :: ts, p⟩ =
      extend operand level bound (Expr.join op e right) d := by
  have further : t.kind.isEnd = false := by
    cases hk : t.kind with
    | endOfPage =>
      rw [hk] at ht
      cases ht
    | _ => rfl
  have found : (Cursor.mk (t :: ts) p).kind.binaryOp? = some op := ht
  rw [extend, bind_of_ok (kind_run ⟨t :: ts, p⟩), found]
  dsimp only
  rw [if_pos hlevel, bind_of_ok (advance_cons further), bind_of_ok h]

/-- An expression ends before anything but operators of its level or above. -/
theorem extend_stop (h : ∀ op, c.kind.binaryOp? = some op → op.strength < level) :
    extend operand level bound e c = .ok (e, c) := by
  cases bound with
  | zero => rfl
  | succ bound =>
    rw [extend, bind_of_ok (kind_run c)]
    cases hop : c.kind.binaryOp? with
    | none => rfl
    | some op =>
      dsimp only
      rw [if_neg (Nat.not_le_of_lt (h op hop))]
      rfl

/-! ## Arguments -/

theorem argument_of_ok (h : expression c = .ok (e, d)) :
    argument expression c = .ok (.mk e (c.isParenthesized d), d) := by
  change (expression >>= fun value => get >>= fun last =>
    pure (Arg.mk value (c.isParenthesized last))) c = _
  rw [bind_of_ok h]
  rfl

theorem commaSeparated_one {item : Parse α} {a : α} (h : item c = .ok (a, d))
    (hd : d.kind ≠ .symbol .comma) : commaSeparated item bound c = .ok ([a], d) := by
  cases bound with
  | zero =>
    change (item >>= fun a => pure [a]) c = _
    rw [bind_of_ok h]
    rfl
  | succ bound =>
    change (item >>= fun first => acceptSymbol .comma >>= fun more => if more then _ else _) c = _
    rw [bind_of_ok h, bind_of_ok (acceptSymbol_of_ne hd)]
    rfl

theorem commaSeparated_cons {item : Parse α} {a : α} {as : List α}
    (h : item c = .ok (a, ⟨t :: ts, p⟩)) (ht : t.kind = .symbol .comma)
    (hrest : commaSeparated item bound ⟨ts, t.span⟩ = .ok (as, d)) :
    commaSeparated item (bound + 1) c = .ok (a :: as, d) := by
  change (item >>= fun first => acceptSymbol .comma >>= fun more => if more then
    commaSeparated item bound >>= fun further => pure (first :: further) else _) c = _
  rw [bind_of_ok h, bind_of_ok (acceptSymbol_cons ht), if_pos rfl, bind_of_ok hrest]
  rfl

/-- The number behind a sign, or behind none. -/
def numberBehind (apply : Float → Float) (start : Span) : Parse (Float × Span) := do
  match ← kind with
  | .number value => do
    let stop ← advance
    pure (apply value, start.merge stop)
  | _ => expected "number"

/-! ## Assignments and calls -/

/-- The arguments of a call behind its callee. -/
def argumentsOf (callee : Expr) : Parse Stmt := do
  let args ← commaList (argument Expr.parse)
  let s := callee.span.merge (← previous)
  pure (.call s (.call s callee args))

/-- The rest of an assignment or a call behind its chain. -/
def behindChain (chain : Expr) (opening : Option Cursor) : Parse Stmt := do
  if ← acceptSymbol .eq then
    let value ← Expr.parse
    pure (.assign (chain.span.merge value.span) chain value)
  else
    let found ← kind
    if found.endsStatement || found.isKeyword .elseWord then
      pure (.call chain.span (callOfChain chain opening.isSome))
    else
      let callee ← match chain, opening with
        | .call _ callee _, some before => do
          set before
          pure callee
        | chain, _ => pure chain
      argumentsOf callee

theorem behindChain_assign {chain : Expr} {opening : Option Cursor}
    (h : c.kind.isSymbol .eq = true) :
    behindChain chain opening c = (Expr.parse >>= fun value =>
      pure (Stmt.assign (chain.span.merge value.span) chain value)) c.advance := by
  unfold behindChain
  exact bind_of_ok (accept_yes h)

theorem behindChain_call {chain : Expr} {opening : Option Cursor}
    (h : c.kind.isSymbol .eq = false)
    (hend : (c.kind.endsStatement || c.kind.isKeyword .elseWord) = true) :
    behindChain chain opening c = .ok (.call chain.span (callOfChain chain opening.isSome), c) := by
  unfold behindChain
  refine (bind_of_ok (accept_no h)).trans ((bind_of_ok (kind_run c)).trans ?_)
  rw [if_pos hend]
  rfl

/-- If the chain ends in parentheses, they belong to the first argument. -/
theorem behindChain_arguments {chain : Expr} {opening : Option Cursor}
    (h : c.kind.isSymbol .eq = false)
    (hend : (c.kind.endsStatement || c.kind.isKeyword .elseWord) = false) :
    behindChain chain opening c =
      match chain, opening with
      | .call _ callee _, some before => argumentsOf callee before
      | chain, _ => argumentsOf chain c := by
  unfold behindChain
  refine (bind_of_ok (accept_no h)).trans ((bind_of_ok (kind_run c)).trans ?_)
  rw [if_neg (hend ▸ Bool.false_ne_true)]
  cases chain with
  | call => cases opening <;> rfl
  | _ => rfl

theorem assignmentOrCall_eq : assignmentOrCall = chainHead >>= fun head => remaining >>= fun bound =>
    links Expr.parse bound head none >>= fun x => behindChain x.1 x.2 :=
  rfl

/-! ## Declarations -/

/-- A parameter behind the words for how it is passed. -/
def namedParameter (byRef : Bool) : Parse Param := do
  let name ← identifier
  let here ← get
  if here.kind.isSymbol .lparen && here.nextKind.isSymbol .rparen then
    let _ ← advance
    let _ ← advance
  pure ⟨name, byRef⟩

/-- A function or sub behind the word that starts it. -/
def namedProcedure (statement : Enclosing → Parse Stmt) (isSub : Bool) (start : Span)
    (access : Access) : Parse Stmt := do
  let name ← identifier
  let params ← parameters
  let body ← procedureBody statement
  let _ ← requireKeyword .endWord
  let _ ← requireKeyword (if isSub then .subWord else .functionWord)
  let form := if isSub then ProcedureForm.sub else .function
  pure (.procedure (start.merge (← previous)) (.mk name form params body access))

/-- What is read where the word `default` may have stood. -/
def declarationAt (statement : Enclosing → Parse Stmt) (around : Enclosing) (start : Span)
    (access : Access) (isDefault : Bool) : Parse Stmt := do
  match ← kind with
  | .keyword .functionWord | .keyword .subWord => procedureFrom statement around start access
  | .keyword .propertyWord => propertyFrom statement around start access isDefault
  | found =>
    if isDefault then expected "`function` or `property`"
    else if found.isKeyword .constWord then constantGroup start
    else variableGroup start access

/-- What is read behind the word for an access. -/
def declarationBehind (statement : Enclosing → Parse Stmt) (around : Enclosing) (start : Span)
    (access : Access) : Parse Stmt := do
  let isDefault ← acceptWord "default"
  declarationAt statement around start access isDefault

end Parse

end PageScript
