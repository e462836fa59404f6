import PageScript.Proofs.Syntax.Program.Expressions

/-!
# Proofs/Syntax/Program/Blocks — statements one behind the other

What is read is the same as what was written up to places (`Stmt.Same`).  A statement starts with a
token that no block ends with (`Written.starts`), so blocks end where they should: a reader of single
statements that takes all those with few pieces (`Stmt.TakesUpTo`) makes a reader of blocks that
takes all blocks with few pieces (`Body.takes`).
-/

namespace PageScript

open Parse

/-! ## Statements up to places -/

mutual

/-- The same statement with all places forgotten. -/
def Stmt.unplaced : Stmt → Stmt
  | .block _ body => .block .origin (Stmt.unplacedAll body)
  | .assign _ target value => .assign .origin target.unplaced value.unplaced
  | .call _ call => .call .origin call.unplaced
  | .const _ name value => .const .origin name value
  | .dim _ name bounds access => .dim .origin name bounds access
  | .redim _ name bounds preserve => .redim .origin name (bounds.map Expr.unplaced) preserve
  | .procedure _ decl => .procedure .origin decl.unplaced
  | .classDecl _ name members => .classDecl .origin name (Stmt.unplacedAll members)
  | .property _ kind decl isDefault => .property .origin kind decl.unplaced isDefault
  | .branch _ cond thenBody elseBody =>
    .branch .origin cond.unplaced (Stmt.unplacedAll thenBody) (Stmt.unplacedAll elseBody)
  | .loop _ cond body untilTrue testsAfter =>
    .loop .origin cond.unplaced (Stmt.unplacedAll body) untilTrue testsAfter
  | .count _ var first last step body =>
    .count .origin var first.unplaced last.unplaced step.unplaced (Stmt.unplacedAll body)
  | .forEach _ var collection body =>
    .forEach .origin var collection.unplaced (Stmt.unplacedAll body)
  | .select _ subject cases => .select .origin subject.unplaced (Stmt.unplacedCases cases)
  | .withObject _ object body => .withObject .origin object.unplaced (Stmt.unplacedAll body)
  | .exit _ kind => .exit .origin kind
  | .onError _ kind => .onError .origin kind
  | .optionExplicit _ on => .optionExplicit .origin on
  | .includeFile _ directive none => .includeFile .origin directive none
  | .includeFile _ directive (some body) =>
    .includeFile .origin directive (some (Stmt.unplacedAll body))

/-- The same statements with all places forgotten. -/
def Stmt.unplacedAll : List Stmt → List Stmt
  | [] => []
  | stmt :: rest => stmt.unplaced :: Stmt.unplacedAll rest

/-- The same cases with all places forgotten. -/
def Stmt.unplacedCases : List Case → List Case
  | [] => []
  | found :: rest => found.unplaced :: Stmt.unplacedCases rest

/-- The same case with all places forgotten. -/
def Case.unplaced : Case → Case
  | .mk none body => .mk none (Stmt.unplacedAll body)
  | .mk (some conditions) body => .mk (some (conditions.map Expr.unplaced)) (Stmt.unplacedAll body)

/-- The same procedure with all places forgotten. -/
def Procedure.unplaced : Procedure → Procedure
  | .mk name kind params body access => .mk name kind params (Stmt.unplacedAll body) access

end

theorem Expr.map_unplaced_of_same {es es' : List Expr} (h : List.Forall₂ Expr.Same es es') :
    es'.map Expr.unplaced = es.map Expr.unplaced := by
  induction h with
  | nil => rfl
  | cons h _ ih => exact congrArg₂ List.cons h ih

/-- The token is one of some reserved words. -/
def OneOf (words : List Keyword) (kind : TokenKind) : Prop := ∃ k ∈ words, kind = .keyword k

/-- A block with words at its end stops at `end`. -/
theorem Closes.ahead_end {word : Keyword} {ps : List Piece} {follow : TokenKind → Prop}
    (h : Closes word ps) : Ahead ps follow (· = .keyword .endWord) := by
  obtain ⟨he, -⟩ := h
  exact .of_kind he rfl

theorem Closes.ahead {words : List Keyword} {word : Keyword} {ps : List Piece}
    {follow : TokenKind → Prop} (h : Closes word ps) (hend : .endWord ∈ words) :
    Ahead ps follow (OneOf words) :=
  h.ahead_end.imp fun _ hk => ⟨.endWord, hend, hk⟩

/-- The words at the end of a block are read one by one. -/
theorem Closes.takes {α : Type} {word : Keyword} {ps : List Piece} {follow : TokenKind → Prop}
    {result : α → Prop} {m : Parse α} (h : Closes word ps) (hm : Takes m [] follow result) :
    Takes (requireKeyword .endWord >>= fun _ => requireKeyword word >>= fun _ => m) ps follow
      result := by
  obtain ⟨he, hw⟩ := h
  exact .requireKeyword he fun _ => .requireKeyword hw fun _ => hm

/-- A run of separators stands behind what is over there. -/
theorem IsRun.ahead {run ps : List Piece} {follow : TokenKind → Prop} (hrun : IsRun run) :
    Ahead (run ++ ps) follow TokenKind.IsJoint := by
  obtain ⟨p, run, rfl⟩ := List.exists_cons_of_ne_nil hrun.ne_nil
  exact hrun.joints p List.mem_cons_self

namespace Expr

/-- What a chain starts with: a point, or a name that only a symbol follows. -/
inductive StartsChain : List Piece → Prop
  | dot {p ps} (hp : p.kind = .symbol .dot) : StartsChain (p :: ps)
  | name {p ps name} (hp : p.kind = .ident name) (next : ∀ q ∈ ps.head?, ∃ s, q.kind = .symbol s) :
      StartsChain (p :: ps)

theorem StartsChain.append {ps qs : List Piece} {q : Piece} {s : Symbol} (h : StartsChain ps)
    (hq : q.kind = .symbol s) : StartsChain (ps ++ q :: qs) := by
  cases h with
  | dot hp => exact .dot hp
  | @name p ps _ hp next =>
    refine .name hp fun r hr => ?_
    cases ps with
    | nil =>
      cases hr
      exact ⟨s, hq⟩
    | cons => exact next r hr

theorem ChainWritten.starts : ∀ {e : Expr} {ps : List Piece}, ChainWritten e ps → StartsChain ps
  | _, _, .var hname => .name hname nofun
  | _, _, .withMember hdot _ => .dot hdot
  | _, _, .member hobject hdot _ _ => hobject.starts.append hdot
  | _, _, .apply hcallee hl _ _ => hcallee.starts.append hl
  | _, _, .call hcallee hl _ _ => hcallee.starts.append hl

/-- Something follows the first piece of a chain with more behind it. -/
theorem ChainWritten.two_le {e : Expr} {ps qs : List Piece} (h : ChainWritten e ps) (q : Piece) :
    ∃ p r rs, ps ++ q :: qs = p :: r :: rs := by
  obtain ⟨p, ps, rfl⟩ := List.exists_cons_of_ne_nil h.ne_nil
  obtain ⟨r, rs, hrs⟩ := List.exists_cons_of_ne_nil (List.append_ne_nil_of_right_ne_nil ps (List.cons_ne_nil q qs))
  exact ⟨p, r, rs, congrArg (p :: ·) hrs⟩

end Expr

namespace Stmt

variable {around : Enclosing} {stmt : Stmt} {body : List Stmt} {p : Piece} {ps qs seps : List Piece}
  {follow good : TokenKind → Prop} {α β : Type} {result : α → Prop} {bound n : Nat}

/-- The statement is another one, up to places. -/
def Same (stmt stmt' : Stmt) : Prop := stmt'.unplaced = stmt.unplaced

/-- The statements are others, up to places. -/
def SameAll (body body' : List Stmt) : Prop := unplacedAll body' = unplacedAll body

theorem sameAll_of_forall₂ {body' : List Stmt} (h : List.Forall₂ Same body body') :
    SameAll body body' := by
  induction h with
  | nil => rfl
  | cons h _ ih => exact congrArg₂ List.cons h ih

theorem unplaced_withSpan (s : Span) (stmt : Stmt) : (stmt.withSpan s).unplaced = stmt.unplaced := by
  cases stmt with
  | includeFile _ directive attached => cases attached <;> rfl
  | _ => rfl

/-! ## The first piece -/

/-- The words that a statement starts with. -/
def startWords : List Keyword :=
  [.dimWord, .publicWord, .privateWord, .constWord, .reDimWord, .functionWord, .subWord,
    .propertyWord, .classWord, .ifWord, .whileWord, .doWord, .forWord, .selectWord, .withWord,
    .exitWord, .optionWord, .callWord]

/-- A statement may start with the token. -/
def StartsWith : TokenKind → Prop
  | .ident _ | .symbol .dot => True
  | .keyword k => k ∈ startWords
  | _ => False

/-- The first piece of a statement. -/
def Starts (ps : List Piece) : Prop := ∃ p qs, ps = p :: qs ∧ StartsWith p.kind

theorem Starts.length_pos (h : Starts ps) : 0 < ps.length := by
  obtain ⟨p, qs, rfl, -⟩ := h
  exact Nat.succ_pos _

theorem StartsWith.isSeparator_eq {kind : TokenKind} (h : StartsWith kind) :
    kind.isSeparator = false := by
  cases kind with
  | symbol s => cases s <;> first | rfl | exact h.elim
  | _ => first | rfl | exact h.elim

theorem StartsWith.isEnd_eq {kind : TokenKind} (h : StartsWith kind) : kind.isEnd = false := by
  cases kind <;> first | rfl | exact h.elim

theorem StartsWith.isKeyword_eq {kind : TokenKind} {k : Keyword} (h : StartsWith kind)
    (hk : k ∉ startWords) : kind.isKeyword k = false := by
  rw [Bool.eq_false_iff]
  intro found
  obtain rfl := TokenKind.isKeyword_iff.mp found
  exact hk h

theorem Starts.of_chain (h : Expr.StartsChain ps) : Starts ps := by
  cases h with
  | dot hp => exact ⟨_, _, rfl, hp ▸ trivial⟩
  | name hp => exact ⟨_, _, rfl, hp ▸ trivial⟩

theorem Starts.of_keyword {k : Keyword} (hp : p.kind = .keyword k) (hk : k ∈ startWords) :
    Starts (p :: ps) :=
  ⟨p, ps, rfl, hp ▸ hk⟩

theorem Starts.of_isWord {spelling : String} (hp : p.kind.isWord spelling = true) :
    Starts (p :: ps) := by
  refine ⟨p, ps, rfl, ?_⟩
  cases hkind : p.kind with
  | ident name => trivial
  | _ =>
    rw [hkind] at hp
    cases hp

theorem Access.keyword_mem_startWords (access : Access) : access.keyword ∈ startWords := by
  cases access <;> decide

theorem Starts.of_modified {access : Access} {isDefault : Bool} {k : Keyword}
    (h : Modified access isDefault qs) (hp : p.kind = .keyword k) (hk : k ∈ startWords) :
    Starts (qs ++ p :: ps) := by
  cases h with
  | bare => exact .of_keyword hp hk
  | access hq | marked hq => exact .of_keyword hq (Access.keyword_mem_startWords access)

/-- **A statement starts with a token that ends no block.** -/
theorem Written.starts (h : Written around stmt ps) : Starts ps := by
  cases h with
  | assign htarget heq => exact .of_chain (htarget.starts.append heq)
  | accessed hw => exact .of_keyword hw (Access.keyword_mem_startWords _)
  | @procedure _ _ decl _ _ _ _ hm hw =>
    exact .of_modified hm hw (by cases decl.kind <;> decide)
  | property _ hm hw => exact .of_modified hm hw (by decide)
  | resumeNext ho | gotoZero ho => exact .of_isWord ho
  | call hw | dim hw | const hw | constants hw | redim hw | redimPreserve hw | classDecl _ hw
  | branch hw | whileLoop hw | doBefore hw | doBehind hw | count hw | forEach hw | select hw
  | withObject hw | exit hw | explicit hw | explicitOn hw | explicitOff hw =>
    exact .of_keyword hw (by decide)

/-! ## Separators -/

theorem isSeparator_of_isJoint {kind : TokenKind} (h : kind.IsJoint) :
    (kind.isSeparator && !kind.isEnd) = true := by
  cases kind with
  | symbol s => cases s <;> first | rfl | exact h.elim
  | _ => first | rfl | exact h.elim

/-- No separator that is dropped. -/
def Stays (kind : TokenKind) : Prop := (kind.isSeparator && !kind.isEnd) = false

theorem StartsWith.stays {kind : TokenKind} (h : StartsWith kind) : Stays kind := by
  rw [Stays, h.isSeparator_eq, Bool.false_and]

theorem stays_keyword (k : Keyword) : Stays (.keyword k) := rfl

theorem stays_of_end : ∀ kind, kind = .keyword .endWord → Stays kind := by
  rintro _ rfl
  exact stays_keyword .endWord

theorem stays_of_isEnd {kind : TokenKind} (h : kind.isEnd = true) : Stays kind := by
  rw [Stays, h, Bool.not_true, Bool.and_false]

/-- Separators are dropped up to what is none. -/
theorem takes_dropSeparators {f : Unit → Parse α} (hseps : ∀ p ∈ seps, p.kind.IsJoint)
    (ahead : Ahead ps follow Stays) (hf : Takes (f ()) ps follow result) :
    Takes (dropSeparators >>= f) (seps ++ ps) follow result := by
  intro ts rest s hts hrest
  obtain ⟨ts₁, ts₂, rfl, h₁, h₂⟩ := giveAll_append hts
  have stop (q : Span) :
      Cursor.dropSeparatorsFrom q (ts₂ ++ rest) = ⟨ts₂ ++ rest, q⟩ := by
    have stays := ahead.kind h₂ hrest q
    cases hleft : ts₂ ++ rest with
    | nil => rfl
    | cons t us =>
      rw [hleft] at stays
      exact if_neg (stays ▸ Bool.false_ne_true)
  have drop : ∃ q, Cursor.dropSeparatorsFrom s (ts₁ ++ (ts₂ ++ rest)) = ⟨ts₂ ++ rest, q⟩ := by
    clear hts
    induction seps generalizing ts₁ s with
    | nil =>
      obtain rfl := h₁
      exact ⟨s, stop s⟩
    | cons p seps ih =>
      obtain ⟨t, us, rfl, ht, hus⟩ := giveAll_cons h₁
      obtain ⟨q, further⟩ := ih (s := t.span) (fun p hp => hseps p (List.mem_cons_of_mem _ hp)) us hus
      refine ⟨q, ?_⟩
      have joint := isSeparator_of_isJoint (hseps p List.mem_cons_self)
      rw [List.cons_append, Cursor.dropSeparatorsFrom, ht, if_pos joint, further]
  obtain ⟨q, drop⟩ := drop
  have run : dropSeparators ⟨ts₁ ++ ts₂ ++ rest, s⟩ = .ok ((), ⟨ts₂ ++ rest, q⟩) := by
    rw [List.append_assoc, ← drop]
    rfl
  rw [bind_of_ok run]
  exact hf h₂ hrest

/-! ## Blocks -/

/-- The readers of single statements take all statements with few pieces, up to their ends. -/
def TakesUpTo (statement : Enclosing → Parse Stmt) (bound : Nat) : Prop :=
  ∀ ⦃around stmt ps⦄, Written around stmt ps → ps.length ≤ bound →
    Takes (statement around) ps TokenKind.Ends stmt.Same

variable {statement : Enclosing → Parse Stmt} {stop : TokenKind → Bool}

theorem takes_statementEnd {f : Unit → Parse α} (ahead : Ahead ps follow TokenKind.Ends)
    (hf : Takes (f ()) ps follow result) : Takes (statementEnd >>= f) ps follow result := by
  intro ts rest s hts hrest
  have finished : (Cursor.mk (ts ++ rest) s).kind.endsStatement = true := ahead.kind hts hrest s
  have run : statementEnd ⟨ts ++ rest, s⟩ = .ok ((), ⟨ts ++ rest, s⟩) := by
    rw [statementEnd, bind_of_ok (kind_run _), if_pos finished]
    rfl
  rw [bind_of_ok run]
  exact hf hts hrest

theorem Starts.ahead (h : Starts ps) : Ahead (ps ++ qs) follow StartsWith := by
  obtain ⟨p, rest, rfl, hp⟩ := h
  exact hp

/-- A statement does not start with a token that a block stops at. -/
def NoStart (stop : TokenKind → Bool) : Prop := ∀ kind, StartsWith kind → stop kind = false

/-- Behind separators the reader of statements reads on to what follows the pieces.  Every step that
it makes takes a piece. -/
def ReadsOn (statement : Parse Stmt) (stop : TokenKind → Bool) (follow : TokenKind → Prop)
    (body : List Stmt) (ps : List Piece) : Prop :=
  ∀ ⦃seps : List Piece⦄ ⦃n : Nat⦄, (∀ p ∈ seps, p.kind.IsJoint) → seps.length + ps.length ≤ n + 1 →
    Takes (statements statement stop (n + 1)) (seps ++ ps) follow (SameAll body)

section ReadsOn

variable {reader : Parse Stmt} {rest : List Stmt} {run : List Piece}

theorem readsOn_nil (hstays : ∀ kind, follow kind → Stays kind)
    (hstop : ∀ kind, follow kind → (kind.isEnd || stop kind) = true) :
    ReadsOn reader stop follow [] [] := by
  intro seps n hseps _
  refine takes_dropSeparators hseps hstays ?_
  have ahead : Ahead [] follow fun k => (k.isEnd || stop k) = true := hstop
  refine .kind_ahead ahead fun k hk => ?_
  rw [if_pos hk]
  exact .pure rfl

/-- The reader takes a statement, and what is left to show is about the others. -/
theorem takes_statements_cons (hstmt : Takes reader ps TokenKind.Ends stmt.Same)
    (starts : Starts ps) (hstop : NoStart stop) (hseps : ∀ p ∈ seps, p.kind.IsJoint)
    (ahead : Ahead qs follow TokenKind.Ends)
    (hrest : Takes (statements reader stop n) qs follow (SameAll rest)) :
    Takes (statements reader stop (n + 1)) (seps ++ (ps ++ qs)) follow (SameAll (stmt :: rest)) := by
  refine takes_dropSeparators hseps (starts.ahead.imp fun _ h => h.stays) ?_
  refine .kind_ahead starts.ahead fun k hk => ?_
  have goes : ¬(k.isEnd || stop k) = true := by
    rw [hk.isEnd_eq, hstop k hk]
    exact Bool.false_ne_true
  rw [if_neg goes]
  refine .bind hstmt (fun _ hfirst => ?_) ahead
  refine takes_statementEnd ahead ?_
  exact .bind_last hrest fun _ hrest => .pure (congrArg₂ List.cons hfirst hrest)

theorem ReadsOn.cons (hstmt : Takes reader ps TokenKind.Ends stmt.Same) (starts : Starts ps)
    (hstop : NoStart stop) (hrun : IsRun run) (h : ReadsOn reader stop follow rest qs) :
    ReadsOn reader stop follow (stmt :: rest) (ps ++ (run ++ qs)) := by
  intro seps n hseps hn
  have first := starts.length_pos
  have second := List.length_pos_iff.mpr hrun.ne_nil
  rw [List.length_append, List.length_append] at hn
  obtain ⟨n, rfl⟩ : ∃ n', n = n' + 1 := ⟨n - 1, by omega⟩
  have further : run.length + qs.length ≤ n + 1 := by omega
  exact takes_statements_cons hstmt starts hstop hseps (hrun.ahead.imp fun _ h => h.ends)
    (h hrun.joints further)

/-- Behind the last statement no separator has to stand. -/
theorem readsOn_last (hstmt : Takes reader ps TokenKind.Ends stmt.Same) (starts : Starts ps)
    (hstop : NoStart stop) (hends : ∀ kind, follow kind → kind.Ends)
    (h : ReadsOn reader stop follow [] []) : ReadsOn reader stop follow [stmt] ps := by
  intro seps n hseps _
  have nothing : Takes (statements reader stop n) [] follow (SameAll []) := by
    cases n with
    | zero => exact .pure rfl
    | succ n =>
      exact @h [] n nofun (Nat.zero_le _)
  exact ps.append_nil ▸ takes_statements_cons hstmt starts hstop hseps hends nothing

end ReadsOn

/-- **Statements with separators behind each of them are read**, and then the others. -/
theorem Lines.readsOn (hstatement : TakesUpTo statement bound) (hstop : NoStart stop)
    {tail : List Stmt} (htail : ReadsOn (statement around) stop follow tail qs) :
    ∀ {body : List Stmt} {ps : List Piece}, Lines around body ps → ps.length ≤ bound →
      ReadsOn (statement around) stop follow (body ++ tail) (ps ++ qs)
  | _, _, .nil, _ => htail
  | _, _, .cons first hrun further, hbound => by
    rw [List.length_append, List.length_append] at hbound
    have rest := Lines.readsOn hstatement hstop htail further (by omega)
    rw [List.append_assoc, List.append_assoc]
    exact .cons (hstatement first (by omega)) first.starts hstop hrun rest

/-! ## Bodies -/

/-- No statement starts with a word that is none of their first ones. -/
theorem noStart_words {words : List Keyword} (hwords : ∀ k ∈ words, k ∉ startWords) :
    NoStart fun found => words.any fun k => found.isKeyword k :=
  fun _ hkind => List.any_eq_false.mpr fun k hk => Bool.eq_false_iff.mp
    (hkind.isKeyword_eq (hwords k hk))

theorem Body.ahead (h : Body around body ps) : Ahead (ps ++ qs) follow TokenKind.IsJoint := by
  obtain ⟨hrun, -⟩ := h
  rw [List.append_assoc]
  exact hrun.ahead

theorem Body.length_pos (h : Body around body ps) : 0 < ps.length := by
  obtain ⟨hrun, -⟩ := h
  rw [List.length_append]
  exact Nat.add_pos_left (List.length_pos_iff.mpr hrun.ne_nil) _

/-- **The body of a block is read** up to one of the words that it ends with. -/
theorem Body.takes (h : Body around body ps) (hstatement : TakesUpTo statement bound)
    (hps : ps.length ≤ bound) (words : List Keyword) (hwords : ∀ k ∈ words, k ∉ startWords) :
    Takes (blockUntil (statement around) words) ps (OneOf words) (SameAll body) := by
  obtain ⟨hrun, hlines⟩ := h
  rw [List.length_append] at hps
  have pos := List.length_pos_iff.mpr hrun.ne_nil
  have stays : ∀ kind, OneOf words kind → Stays kind := by
    rintro _ ⟨k, -, rfl⟩
    exact stays_keyword k
  have stops : ∀ kind, OneOf words kind →
      (kind.isEnd || words.any fun k => kind.isKeyword k) = true := by
    rintro _ ⟨k, hk, rfl⟩
    exact List.any_eq_true.mpr ⟨k, hk, beq_self_eq_true k⟩
  have read := hlines.readsOn hstatement (noStart_words hwords) (readsOn_nil stays stops)
    (by omega)
  rw [List.append_nil, List.append_nil] at read
  refine .remaining fun n hn => ?_
  rw [List.length_append] at hn
  obtain ⟨n, rfl⟩ : ∃ n', n = n' + 1 := ⟨n - 1, by omega⟩
  exact read hrun.joints hn

end Stmt

end PageScript
