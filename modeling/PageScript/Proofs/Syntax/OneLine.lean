import PageScript.Proofs.Syntax.Abreast.Simple
import PageScript.Proofs.Syntax.InFront

/-!
# Proofs/Syntax/OneLine — statements that stand on one line

Declarations, assignments, calls, `exit`, `option explicit` and `on error` are read from tokens of their
own.  Wherever something that ends a statement stands behind those tokens, the same statement is read,
up to places, and nothing else is taken (`Stmt.IsOneLine.readsOne`).
-/

namespace PageScript

open Parse Grammar
open Token (next nextAdjacent)

variable {rest : List Token} {c c' d d' : Cursor} {least : Nat}

namespace Parse

/-! ## Declarations -/

theorem persists_arrayBound (h : c.InFront rest c') :
    Persists rest 1 Eq arrayBound arrayBound c c' := by
  refine persists_kind h (fun k hk goes => ?_) fun _ _ => persists_expected _
  cases k with
  | number value =>
    dsimp only
    cases bound? value with
    | none => exact persists_expected _
    | some n => exact persists_taken h (hk ▸ goes) rfl
  | _ => exact persists_expected _

theorem persists_declaredVariable (access : Access) (h : c.InFront rest c') :
    Persists rest 1 Stmt.Same (declaredVariable access) (declaredVariable access) c c' := by
  have declared (s s' : Span) (name : Name) (bounds : Option (List Nat)) {c c' : Cursor}
      (h : c.InFront rest c') : Persists rest 0 Stmt.Same
        (previous >>= fun p => pure (.dim (s.merge p) name bounds access))
        (previous >>= fun p => pure (.dim (s'.merge p) name bounds access)) c c' :=
    persists_previous fun _ _ => persists_pure h rfl
  refine persists_span fun s s' => (persists_identifier h).bindSame (j := 0) fun name _ _ onward => ?_
  refine persists_accept onward (TokenKind.inside_isSymbol nofun) (fun d d' onward _ => ?_)
    (declared s s' name none onward)
  have closed (bounds : List Nat) {c c' : Cursor} (h : c.InFront rest c') : Persists rest 0 Stmt.Same
      (requireSymbol .rparen >>= fun _ => previous >>= fun p =>
        pure (.dim (s.merge p) name (some bounds) access))
      (requireSymbol .rparen >>= fun _ => previous >>= fun p =>
        pure (.dim (s'.merge p) name (some bounds) access)) c c' :=
    ((persists_requireSymbol .rparen h nofun).bind fun _ _ _ _ _ onward =>
      declared s s' name (some bounds) onward).loosen
  refine persists_test onward (TokenKind.inside_isSymbol nofun) (closed [] onward) ?_
  refine ((persists_commaList onward persists_arrayBound).bind (j := 0)
    fun bounds bounds' _ _ same onward => ?_).loosen
  rw [List.forall₂_eq_eq_eq] at same
  subst same
  exact closed bounds onward

/-- A list of declarations behind a word is one block. -/
theorem persists_group {item item' : Parse Stmt} (s s' : Span) (h : c.InFront rest c')
    (hitem : ∀ {c c' : Cursor}, c.InFront rest c' → Persists rest 1 Stmt.Same item item' c c') :
    Persists rest 1 Stmt.Same
      (commaList item >>= fun body => previous >>= fun p => pure (.block (s.merge p) body))
      (commaList item' >>= fun body => previous >>= fun p => pure (.block (s'.merge p) body)) c c' :=
  (persists_commaList h hitem).bind fun _ _ _ _ same onward => persists_previous fun _ _ =>
    persists_pure onward (congrArg (Stmt.block .origin) (Stmt.sameAll_of_forall₂ same))

theorem persists_variableGroup (s s' : Span) (access : Access) (h : c.InFront rest c') :
    Persists rest 1 Stmt.Same (variableGroup s access) (variableGroup s' access) c c' :=
  persists_group s s' h (persists_declaredVariable access)

theorem persists_signedNumber (h : c.InFront rest c') :
    Persists rest 1 (fun x y => x.1 = y.1) signedNumber signedNumber c c' := by
  have number (apply : Float → Float) (s s' : Span) {c c' : Cursor} (h : c.InFront rest c') :
      Persists rest 1 (fun x y => x.1 = y.1) (numberBehind apply s) (numberBehind apply s') c c' := by
    refine persists_kind h (fun k hk goes => ?_) fun _ _ => persists_expected _
    cases k with
    | number => exact (persists_advance h (hk ▸ goes)).bind fun _ _ _ _ _ onward =>
        persists_pure onward rfl
    | _ => exact persists_expected _
  refine persists_span fun s s' => ?_
  refine persists_accept h (TokenKind.inside_isSymbol nofun)
    (fun _ _ onward _ => (number (- ·) s s' onward).loosen) ?_
  exact persists_accept h (TokenKind.inside_isSymbol nofun)
    (fun _ _ onward _ => (number id s s' onward).loosen) (number id s s' h)

theorem persists_literal (h : c.InFront rest c') : Persists rest 1 Eq literal literal c c' := by
  have signed : Persists rest 1 Eq (signedNumber >>= fun x => pure (Literal.number x.1))
      (signedNumber >>= fun x => pure (Literal.number x.1)) c c' :=
    (persists_signedNumber h).bind fun _ _ _ _ same onward =>
      persists_pure onward (congrArg Literal.number same)
  refine persists_kind h (fun k hk goes => ?_) fun _ _ => persists_expected _
  have other (value : Literal) : Persists rest 1 Eq (advance >>= fun _ => pure value)
      (advance >>= fun _ => pure value) c c' := persists_taken h (hk ▸ goes) rfl
  cases k with
  | number => exact signed
  | string => exact other _
  | keyword word => cases word <;> first | exact persists_expected _ | exact other _
  | symbol sign => cases sign <;> first | exact persists_expected _ | exact signed
  | _ => exact persists_expected _

theorem persists_constant (h : c.InFront rest c') :
    Persists rest 1 Stmt.Same constant constant c c' :=
  persists_span fun _ _ => (persists_identifier h).bindSame fun _ _ _ onward =>
    (persists_requireSymbol .eq onward nofun).bind fun _ _ _ _ _ onward =>
      (persists_literal onward).bindSame fun _ _ _ onward =>
        persists_previous fun _ _ => persists_pure onward rfl

theorem persists_constantGroup (s s' : Span) (h : c.InFront rest c') :
    Persists rest 1 Stmt.Same (constantGroup s) (constantGroup s') c c' := by
  refine (persists_requireKeyword .constWord h nofun).bind (j := 0) fun _ _ _ _ _ onward =>
    ((persists_commaList onward persists_constant).bind (j := 0)
      fun found found' _ _ same onward => persists_previous fun p p' => ?_).loosen
  cases same with
  | nil => exact persists_pure onward rfl
  | cons first further =>
    cases further with
    | nil =>
      -- A single constant stands for itself.
      refine persists_pure onward ?_
      rw [Stmt.Same, Stmt.unplaced_withSpan, Stmt.unplaced_withSpan]
      exact first
    | cons second further =>
      exact persists_pure onward (congrArg (Stmt.block .origin)
        (Stmt.sameAll_of_forall₂ (.cons first (.cons second further))))

theorem persists_resized (preserve : Bool) (h : c.InFront rest c') :
    Persists rest 1 Stmt.Same (resized preserve) (resized preserve) c c' :=
  persists_span fun _ _ => (persists_identifier h).bindSame fun name _ _ onward =>
    (persists_requireSymbol .lparen onward nofun).bind fun _ _ _ _ _ onward =>
      (persists_commaList onward persists_parse).bind fun _ _ _ _ same onward =>
        (persists_requireSymbol .rparen onward nofun).bind fun _ _ _ _ _ onward =>
          persists_previous fun _ _ => persists_pure onward
            (congrArg (Stmt.redim .origin name · preserve) (Expr.map_unplaced_of_same same))

theorem persists_redimStatement (h : c.InFront rest c') :
    Persists rest 1 Stmt.Same redimStatement redimStatement c c' :=
  (persists_requireKeyword .reDimWord h nofun).bind fun s s' _ _ _ onward =>
    persists_accept onward (TokenKind.inside_isWord _)
      (fun _ _ onward _ => (persists_group s s' onward (persists_resized true)).loosen)
      (persists_group s s' onward (persists_resized false)).loosen

/-! ## Assignments and calls -/

/-- The links of a chain that is no part of an expression. -/
theorem persists_chain {α β : Type} {R : α → β → Prop} {f : Expr × Option Cursor → Parse α}
    {g : Expr × Option Cursor → Parse β} (h : c.InFront rest c')
    (hnext : ∀ x y d d', SameChain rest x y → d.InFront rest d' → d.rest.length < c.rest.length →
      Persists rest 0 R (f x) (g y) d d') :
    Persists rest 1 R
      (chainHead >>= fun head => remaining >>= fun n => links Expr.parse n head none >>= f)
      (chainHead >>= fun head => remaining >>= fun n => links Expr.parse n head none >>= g) c c' :=
  (persists_chainHead h).bindTaken fun _ _ _ _ same onward less =>
    persists_remaining onward fun _ _ few _ le =>
      (persists_links onward few le same .none).bindTaken fun x y _ _ same onward less' =>
        hnext x y _ _ same onward (by omega)

/-- What one reader of statements reads, the other one reads where more tokens stand behind.  A call
may go back over tokens that were taken, so they are not counted. -/
def StaysAs (rest : List Token) (p p' : Parse Stmt) (c c' : Cursor) : Prop :=
  ∀ stmt d, p c = .ok (stmt, d) → ∃ stmt' d', p' c' = .ok (stmt', d') ∧ stmt.Same stmt' ∧
    d.InFront rest d'

theorem Persists.staysAs {p p' : Parse Stmt} (h : Persists rest least Stmt.Same p p' c c') :
    StaysAs rest p p' c c' := by
  intro stmt d hd
  obtain ⟨stmt', d', hd', same, onward, -⟩ := h stmt d hd
  exact ⟨stmt', d', hd', same, onward⟩

theorem unplaced_callOfChain (chain : Expr) (endsInArguments : Bool) :
    (callOfChain chain endsInArguments).unplaced = callOfChain chain.unplaced endsInArguments := by
  rw [← Expr.seen_blind, ← Expr.seen_blind, seen_callOfChain]

theorem persists_argumentsOf {callee callee' : Expr} (same : callee.Same callee')
    (h : c.InFront rest c') :
    Persists rest 1 Stmt.Same (argumentsOf callee) (argumentsOf callee') c c' :=
  (persists_arguments h).bind fun _ _ _ _ sameArgs onward => persists_previous fun _ _ =>
    persists_pure onward (congrArg (Stmt.call .origin) (same_call same sameArgs .origin .origin))

theorem same_assign {target target' value value' : Expr} (same : target.Same target')
    (sameValue : value.Same value') (s s' : Span) :
    (Stmt.assign s target value).Same (.assign s' target' value') :=
  congrArg₂ (Stmt.assign .origin) same sameValue

/-- What stands behind a chain, or that nothing does, is seen at both places. -/
theorem staysAs_behindChain {chain chain' : Expr} {opening opening' : Option Cursor}
    (h : c.InFront rest c') (same : SameChain rest (chain, opening) (chain', opening')) :
    StaysAs rest (behindChain chain opening) (behindChain chain' opening') c c' := by
  obtain ⟨same, opens⟩ := same
  intro stmt e hstmt
  have assigned := h.test_eq (TokenKind.inside_isSymbol (s := .eq) nofun)
  have ended : (c'.kind.endsStatement || c'.kind.isKeyword .elseWord) =
      (c.kind.endsStatement || c.kind.isKeyword .elseWord) := by
    obtain ⟨kind, -⟩ | ⟨none, ends⟩ := h.kind_or
    · rw [kind]
    · rw [none, ends.ends]
      rfl
  cases hassign : c.kind.isSymbol .eq with
  | true =>
    rw [behindChain_assign hassign] at hstmt
    rw [behindChain_assign (assigned.trans hassign)]
    obtain ⟨onward, -⟩ := h.advance
      (TokenKind.isEnd_of_inside (TokenKind.inside_isSymbol (s := .eq) nofun) hassign)
    exact ((persists_parse onward).bind fun _ _ _ _ sameValue onward =>
      persists_pure onward (same_assign same sameValue _ _)).staysAs stmt e hstmt
  | false =>
    cases hend : c.kind.endsStatement || c.kind.isKeyword .elseWord with
    | true =>
      rw [behindChain_call hassign hend] at hstmt
      rw [behindChain_call (assigned.trans hassign) (ended.trans hend)]
      cases hstmt
      refine ⟨_, _, rfl, congrArg (Stmt.call .origin) ?_, h⟩
      have parens : opening'.isSome = opening.isSome := by cases opens <;> rfl
      rw [unplaced_callOfChain, unplaced_callOfChain, same, parens]
    | false =>
      rw [behindChain_arguments hassign hend] at hstmt
      rw [behindChain_arguments (assigned.trans hassign) (ended.trans hend)]
      have whole (hstmt : argumentsOf chain c = .ok (stmt, e)) :=
        (persists_argumentsOf same h).staysAs stmt e hstmt
      cases opens with
      | none => cases chain <;> cases chain' <;> exact whole hstmt
      | some before =>
        cases chain with
        | call =>
          cases chain' with
          | call =>
            have callee := (Expr.call.inj same).2.1
            exact (persists_argumentsOf callee before).staysAs stmt e hstmt
          | _ => cases same
        | _ =>
          cases chain' with
          | call => cases same
          | _ => exact whole hstmt

theorem staysAs_assignmentOrCall (h : c.InFront rest c') :
    StaysAs rest assignmentOrCall assignmentOrCall c c' := by
  intro stmt e hstmt
  rw [assignmentOrCall_eq] at hstmt ⊢
  obtain ⟨head, d, hhead, hstmt⟩ := exists_of_bind hstmt
  obtain ⟨_, _, found, hstmt⟩ := exists_of_bind hstmt
  cases found
  obtain ⟨x, f, hlinks, hstmt⟩ := exists_of_bind hstmt
  obtain ⟨head', d', hhead', sameHead, onward, -⟩ := persists_chainHead h head d hhead
  have le : d.rest.length ≤ d'.rest.length := by
    rw [onward.tokens, List.length_append]
    omega
  obtain ⟨y, f', hlinks', same, onward', -⟩ :=
    persists_links onward (Nat.le_refl _) le sameHead .none x f hlinks
  obtain ⟨stmt', e', hstmt', sameStmt, onward''⟩ :=
    staysAs_behindChain onward' same stmt e hstmt
  refine ⟨stmt', e', ?_, sameStmt, onward''⟩
  refine (bind_of_ok hhead').trans ((bind_of_ok (m := remaining) rfl).trans ?_)
  exact (bind_of_ok hlinks').trans hstmt'

theorem persists_markedAssignment (h : c.InFront rest c') (goes : c.kind.isEnd = false) :
    Persists rest 1 Stmt.Same markedAssignment markedAssignment c c' :=
  (persists_advance h goes).bind fun _ _ _ _ _ onward =>
    persists_chain onward fun _ _ _ _ same onward _ =>
      ((persists_requireSymbol .eq onward nofun).bind fun _ _ _ _ _ onward =>
        (persists_parse onward).bind fun _ _ _ _ sameValue onward =>
          persists_pure onward (same_assign same.1 sameValue _ _)).loosen

theorem persists_callStatement (h : c.InFront rest c') (goes : c.kind.isEnd = false) :
    Persists rest 1 Stmt.Same callStatement callStatement c c' := by
  refine (persists_advance h goes).bind fun _ _ _ _ _ onward =>
    persists_chain onward fun x y _ _ same onward _ => ?_
  obtain ⟨chain, opening⟩ := x
  obtain ⟨chain', opening'⟩ := y
  have same : chain.Same chain' := same.1
  have whole (s s' : Span) : Persists rest 0 Stmt.Same (pure (.call s (.call s chain [])))
      (pure (.call s' (.call s' chain' []))) _ _ :=
    persists_pure onward (congrArg (fun e => Stmt.call .origin (.call .origin e [])) same)
  cases chain with
  | call =>
    cases chain' with
    | call =>
      refine persists_pure onward ?_
      exact congrArg (Stmt.call .origin) same
    | _ => cases same
  | _ =>
    cases chain' with
    | call => cases same
    | _ => exact whole _ _

/-! ## Fixed forms -/

theorem persists_exitStatement (h : c.InFront rest c') :
    Persists rest 1 Stmt.Same exitStatement exitStatement c c' := by
  refine (persists_requireKeyword .exitWord h nofun).bind (j := 1) fun s s' d d' _ onward =>
    persists_kind onward (fun k hk goes => ?_) fun _ _ => persists_expected _
  have leave (target : ExitTarget) : Persists rest 1 Stmt.Same
      (advance >>= fun stop => pure (Stmt.exit (s.merge stop) target))
      (advance >>= fun stop => pure (Stmt.exit (s'.merge stop) target)) d d' :=
    (persists_advance onward (hk ▸ goes)).bind fun _ _ _ _ _ onward => persists_pure onward rfl
  split
  · exact leave _
  · exact leave _
  · exact leave _
  · exact leave _
  · exact leave _
  · exact persists_expected _

theorem persists_optionStatement (h : c.InFront rest c') :
    Persists rest 1 Stmt.Same optionStatement optionStatement c c' := by
  have switched (s s' : Span) (on : Bool) {d d' : Cursor} (h : d.InFront rest d') :
      Persists rest 0 Stmt.Same
        (previous >>= fun p => pure (Stmt.optionExplicit (s.merge p) on))
        (previous >>= fun p => pure (Stmt.optionExplicit (s'.merge p) on)) d d' :=
    persists_previous fun _ _ => persists_pure h rfl
  exact (persists_requireKeyword .optionWord h nofun).bind fun s s' _ _ _ onward =>
    (persists_requireWord _ onward).bind fun _ _ _ _ _ onward =>
      persists_accept onward (TokenKind.inside_isWord _)
        (fun _ _ onward _ => switched s s' false onward)
        (persists_accept onward (TokenKind.inside_isWord _)
          (fun _ _ onward _ => switched s s' true onward) (switched s s' true onward))

theorem persists_onErrorStatement (h : c.InFront rest c') :
    Persists rest 1 Stmt.Same onErrorStatement onErrorStatement c c' := by
  have handled (s s' : Span) (policy : ErrorPolicy) {d d' : Cursor} (h : d.InFront rest d') :
      Persists rest 0 Stmt.Same
        (previous >>= fun p => pure (Stmt.onError (s.merge p) policy))
        (previous >>= fun p => pure (Stmt.onError (s'.merge p) policy)) d d' :=
    persists_previous fun _ _ => persists_pure h rfl
  refine (persists_requireWord _ h).bind fun s s' _ _ _ onward =>
    (persists_requireWord _ onward).bind (j := 0) fun _ _ _ _ _ onward =>
      persists_accept onward (TokenKind.inside_isWord _) (fun _ _ onward _ => ?_) ?_
  · exact ((persists_requireKeyword .nextWord onward nofun).bind fun _ _ _ _ _ onward =>
      handled s s' .resumeNext onward).loosen
  · exact ((persists_requireWord _ onward).bind fun _ _ _ _ _ onward =>
      (persists_require onward TokenKind.inside_isZero).bind fun _ _ _ _ _ onward =>
        handled s s' .gotoZero onward).loosen

/-! ## The choice of a reader -/

/-- Behind the next token there is the same one, or one that ends a statement. -/
theorem nextKind_or (h : c.InFront rest c') (goes : c.kind.isEnd = false) :
    c'.nextKind = c.nextKind ∨ c.nextKind = .endOfPage ∧ c'.nextKind.EndsCall := by
  obtain ⟨t, ts, p, q, rfl, rfl, ht⟩ := h.exists_cons goes
  have next := (h.advance goes).1.kind_or
  rw [Cursor.kind_advance goes, Cursor.kind_advance (c := ⟨t :: (ts ++ rest), q⟩) ht] at next
  exact next.imp_left And.left

end Parse

namespace Stmt

/-- The reserved words that statements on one line start with. -/
def lineWords : List Keyword :=
  [.dimWord, .constWord, .reDimWord, .exitWord, .optionWord, .callWord, .setWord]

/-- A statement on one line may start with the token. -/
def StartsLine : TokenKind → Prop
  | .ident _ | .symbol .dot => True
  | .keyword k => k ∈ lineWords
  | _ => False

/-- The tokens are, on their own, a declaration of variables or constants, an assignment, a call, or one
of `exit`, `option explicit` and `on error`. -/
structure IsOneLine (ts : List Token) (stmt : Stmt) : Prop where
  starts : StartsLine (next ts)
  read : ∃ around, ReadsAll (Stmt.parse around) ts stmt.Same

theorem StartsLine.begins {kind : TokenKind} (h : StartsLine kind) : Begins kind := by
  have words : ∀ k ∈ lineWords, k ∈ startWords ∨ k = .setWord := by decide
  cases kind with
  | ident => exact .inl trivial
  | symbol s => cases s <;> first | exact .inl trivial | exact h.elim
  | keyword k => exact (words k h).imp_right (congrArg _)
  | _ => exact h.elim

theorem staysAs_get {f g : Cursor → Parse Stmt} (h : StaysAs rest (f c) (g c') c c') :
    StaysAs rest (get >>= f) (get >>= g) c c' :=
  h

/-- The readers of what stands inside statements play no part. -/
theorem staysAs_statementWith (inner inner' : Enclosing → Parse Stmt) (around around' : Enclosing)
    (h : c.InFront rest c') (starts : StartsLine c.kind) :
    StaysAs rest (statementWith inner around) (statementWith inner' around') c c' := by
  have goes := starts.begins.isEnd_eq
  have kind : c'.kind = c.kind := by
    obtain ⟨t, ts, p, q, rfl, rfl, -⟩ := h.exists_cons goes
    rfl
  refine staysAs_get ?_
  rw [kind]
  cases hk : c.kind with
  | ident name =>
    dsimp only
    -- Two tests of the token behind the name choose, and none that ends a statement passes them.
    have chosen (onError marked : Bool) : StaysAs rest
        (if onError then onErrorStatement else if marked then markedAssignment else assignmentOrCall)
        (if onError then onErrorStatement else if marked then markedAssignment else assignmentOrCall)
        c c' := by
      cases onError with
      | true => exact (persists_onErrorStatement h).staysAs
      | false =>
        cases marked with
        | true => exact (persists_markedAssignment h goes).staysAs
        | false => exact staysAs_assignmentOrCall h
    have next := nextKind_or h goes
    generalize c.nextKind = found, c'.nextKind = found' at next
    obtain rfl | ⟨rfl, ends | rfl⟩ := next
    · exact chosen _ _
    · cases found' <;> first | exact chosen (_ && false) (_ && false) | cases ends
    · exact chosen (_ && false) (_ && false)
  | symbol sign =>
    rw [hk] at starts
    cases sign with
    | dot => exact staysAs_assignmentOrCall h
    | _ => exact starts.elim
  | keyword word =>
    have starts : word ∈ lineWords := (hk ▸ starts : StartsLine (.keyword word))
    cases word with
    | dimWord =>
      exact ((persists_advance h goes).bind fun _ _ _ _ _ onward =>
        persists_variableGroup _ _ .isPublic onward).staysAs
    | constWord => exact (persists_span fun _ _ => persists_constantGroup _ _ h).staysAs
    | reDimWord => exact (persists_redimStatement h).staysAs
    | exitWord => exact (persists_exitStatement h).staysAs
    | optionWord => exact (persists_optionStatement h).staysAs
    | callWord => exact (persists_callStatement h goes).staysAs
    | setWord => exact (persists_markedAssignment h goes).staysAs
    | _ => exact absurd starts (by decide)
  | _ =>
    rw [hk] at starts
    exact starts.elim

variable {ts : List Token} {stmt : Stmt}

theorem IsOneLine.exists_cons (h : IsOneLine ts stmt) : ∃ t us, ts = t :: us := by
  cases ts with
  | nil => exact h.starts.elim
  | cons t us => exact ⟨t, us, rfl⟩

/-- In front of whatever ends a statement, a statement on one line is read as on its own. -/
theorem IsOneLine.readsBefore (h : IsOneLine ts stmt) (inner : Enclosing → Parse Stmt)
    (around : Enclosing) :
    ReadsBefore (statementWith inner around) ts TokenKind.EndsCall stmt.Same := by
  intro rest p ends
  obtain ⟨t, us, rfl⟩ := h.exists_cons
  obtain ⟨around₀, stmt₀, q₀, same₀, alone⟩ := h.read
  have place : (Cursor.mk (t :: us) .origin).InFront rest ⟨t :: us ++ rest, p⟩ := ⟨rfl, ends⟩
  obtain ⟨stmt', ⟨ts', q⟩, run, same, onward⟩ :=
    staysAs_statementWith (fun around => Stmt.parseAt us.length around) inner around₀ around place
      h.starts stmt₀ ⟨[], q₀⟩ alone
  obtain rfl : ts' = rest := onward.tokens
  exact ⟨stmt', q, same.trans same₀, run⟩

theorem IsOneLine.begins (h : IsOneLine ts stmt) (rest : List Token) : Begins (next (ts ++ rest)) := by
  obtain ⟨t, us, rfl⟩ := h.exists_cons
  exact h.starts.begins

/-- **A statement on one line is found wherever statements stand.** -/
theorem IsOneLine.foundEverywhere (h : IsOneLine ts stmt) : FoundEverywhere ts stmt.Same :=
  Stmt.foundEverywhere h.readsBefore h.begins

end Stmt

end PageScript
