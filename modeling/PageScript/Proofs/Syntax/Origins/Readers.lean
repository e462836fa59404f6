import PageScript.Proofs.Syntax.Tree.Readers

/-!
# Proofs/Syntax/Origins/Readers — readers that stay on a page

`p.Gives tokens Q` says that from every place of a page of tokens the reader `p`, if it does not fail,
comes to a place of the page, with a result that `Q` holds of.  There is one rule for each way to build a
reader; nothing is said about where on the page it stands, so the rules compose without bookkeeping.

`Parse.Closed` collects what has to be shown of a property for it to hold of all statements of a program:
that the readers of statements without bodies give it, and that it passes from the statements in bodies to
what holds them (`Parse.Closed.of_program`).
-/

namespace PageScript

variable {tokens : List Token} {c : Cursor}

/-! ## Cursors -/

namespace Cursor

theorem advance_suffix (c : Cursor) : c.advance.rest <:+ c.rest := by
  obtain ⟨ts, p⟩ := c
  cases ts with
  | nil => exact List.suffix_refl _
  | cons t ts =>
    cases inside : t.kind.isEnd with
    | true =>
      have stays : (Cursor.mk (t :: ts) p).advance = ⟨t :: ts, p⟩ := if_pos inside
      exact stays.symm ▸ List.suffix_refl (t :: ts)
    | false => exact advance_cons inside ▸ List.suffix_cons t ts

theorem dropSeparatorsFrom_suffix : ∀ (ts : List Token) (p : Span),
    (dropSeparatorsFrom p ts).rest <:+ ts
  | [], _ => List.suffix_refl _
  | t :: ts, p => by
    unfold dropSeparatorsFrom
    split
    · exact (dropSeparatorsFrom_suffix ts t.span).trans (List.suffix_cons t ts)
    · exact List.suffix_refl _

/-- The token at a cursor that is not at the end of the page. -/
theorem exists_cons (h : c.kind.isEnd = false) : ∃ t ts, c.rest = t :: ts ∧ c.kind = t.kind ∧
    c.span = t.span ∧ c.advance = ⟨ts, t.span⟩ := by
  obtain ⟨ts, p⟩ := c
  cases ts with
  | nil => nomatch h
  | cons t ts => exact ⟨t, ts, rfl, rfl, rfl, advance_cons h⟩

end Cursor

namespace Parse

variable {α β : Type} {p p' : Parse α} {f : α → Parse β} {Q Q' : α → Prop} {R : β → Prop} {a : α}

/-! ## Readers -/

/-- From a place of a page the reader comes to one, with a result of a certain kind, or fails. -/
def Gives (tokens : List Token) (p : Parse α) (Q : α → Prop) : Prop :=
  ∀ c : Cursor, c.rest <:+ tokens → Yields p c fun a d => d.rest <:+ tokens ∧ Q a

/-- The reader stays on the page. -/
abbrev Stays (tokens : List Token) (p : Parse α) : Prop := Gives tokens p fun _ => True

namespace Gives

theorem bind (h : Gives tokens p Q) (hnext : ∀ a, Q a → Gives tokens (f a) R) :
    Gives tokens (p >>= f) R :=
  fun c suffix => (h c suffix).bind fun a d ⟨suffix', ha⟩ => hnext a ha d suffix'

theorem map {g : α → β} (h : Gives tokens p Q) (hR : ∀ a, Q a → R (g a)) :
    Gives tokens (g <$> p) R :=
  fun c suffix => (h c suffix).map fun a _ ⟨suffix', ha⟩ => ⟨suffix', hR a ha⟩

theorem ite {t : Prop} [Decidable t] (h : Gives tokens p Q) (h' : Gives tokens p' Q) :
    Gives tokens (if t then p else p') Q :=
  fun c suffix => .ite (fun _ => h c suffix) fun _ => h' c suffix

end Gives

theorem gives_pure (h : Q a) : Gives tokens (pure a) Q := fun _ suffix => yields_pure ⟨suffix, h⟩

theorem gives_expected (item : String) : Gives tokens (expected item) Q :=
  fun _ _ => yields_expected item

theorem gives_failAt (cause : Cursor → SyntaxError.Cause) : Gives tokens (failAt cause) Q :=
  fun _ _ => yields_failAt cause

/-! ## Looks at the cursor -/

theorem stays_kind : Stays tokens kind := fun _ suffix _ _ read => by
  cases read
  exact ⟨suffix, trivial⟩

theorem stays_span : Stays tokens span := fun _ suffix _ _ read => by
  cases read
  exact ⟨suffix, trivial⟩

theorem stays_previous : Stays tokens previous := fun _ suffix _ _ read => by
  cases read
  exact ⟨suffix, trivial⟩

theorem stays_remaining : Stays tokens remaining := fun _ suffix _ _ read => by
  cases read
  exact ⟨suffix, trivial⟩

theorem stays_get : Stays tokens (get : Parse Cursor) := fun _ suffix _ _ read => by
  cases read
  exact ⟨suffix, trivial⟩

/-! ## Tokens -/

theorem stays_advance : Stays tokens advance := fun c suffix _ _ read => by
  cases read
  exact ⟨c.advance_suffix.trans suffix, trivial⟩

theorem stays_accept (test : TokenKind → Bool) : Stays tokens (accept test) :=
  fun c suffix _ _ read => by
    cases passed : test c.kind with
    | true =>
      cases (accept_yes passed).symm.trans read
      exact ⟨c.advance_suffix.trans suffix, trivial⟩
    | false =>
      cases (accept_no passed).symm.trans read
      exact ⟨suffix, trivial⟩

theorem stays_require (item : String) (test : TokenKind → Bool) : Stays tokens (require item test) :=
  stays_kind.bind fun _ _ => .ite stays_advance (gives_expected item)

theorem stays_identifier : Stays tokens identifier := stays_kind.bind fun found _ => by
  split
  · exact stays_advance.bind fun _ _ => gives_pure trivial
  · exact gives_expected _

theorem stays_dropSeparators : Stays tokens dropSeparators := fun c suffix _ _ read => by
  cases read
  exact ⟨(Cursor.dropSeparatorsFrom_suffix c.rest c.previous).trans suffix, trivial⟩

theorem stays_statementEnd : Stays tokens statementEnd :=
  stays_kind.bind fun _ _ => .ite (gives_pure trivial) (gives_expected _)

theorem stays_signedNumber : Stays tokens signedNumber := by
  have number (apply : Float → Float) (start : Span) : Stays tokens (numberBehind apply start) :=
    stays_kind.bind fun found _ => by
      split
      · exact stays_advance.bind fun _ _ => gives_pure trivial
      · exact gives_expected _
  refine stays_span.bind fun start _ => (stays_accept _).bind fun _ _ => ?_
  refine .ite (number _ start) ((stays_accept _).bind fun _ _ => ?_)
  exact .ite (number _ start) (number _ start)

/-! ## Lists -/

theorem gives_commaSeparated (h : Gives tokens p Q) : ∀ bound,
    Gives tokens (commaSeparated p bound) fun as => ∀ a ∈ as, Q a
  | 0 => h.bind fun _ ha => gives_pure (List.forall_mem_singleton.mpr ha)
  | bound + 1 => h.bind fun _ ha => (stays_accept _).bind fun _ _ =>
    .ite ((gives_commaSeparated h bound).bind fun _ has =>
        gives_pure (List.forall_mem_cons.mpr ⟨ha, has⟩))
      (gives_pure (List.forall_mem_singleton.mpr ha))

theorem gives_commaList (h : Gives tokens p Q) :
    Gives tokens (commaList p) fun as => ∀ a ∈ as, Q a :=
  stays_remaining.bind fun bound _ => gives_commaSeparated h bound

section

variable {statement : Parse Stmt} {S : Stmt → Prop} (hstatement : Gives tokens statement S)
include hstatement

theorem gives_statements (stop : TokenKind → Bool) : ∀ bound,
    Gives tokens (statements statement stop bound) fun body => ∀ stmt ∈ body, S stmt
  | 0 => gives_pure nofun
  | bound + 1 => stays_dropSeparators.bind fun _ _ => stays_kind.bind fun _ _ =>
    .ite (gives_pure nofun) <| hstatement.bind fun _ hfirst => stays_statementEnd.bind fun _ _ =>
      (gives_statements stop bound).bind fun _ hrest =>
        gives_pure (List.forall_mem_cons.mpr ⟨hfirst, hrest⟩)

theorem gives_block (stop : TokenKind → Bool) :
    Gives tokens (block statement stop) fun body => ∀ stmt ∈ body, S stmt :=
  stays_remaining.bind fun _ _ => gives_statements hstatement stop _

theorem gives_blockUntil (words : List Keyword) :
    Gives tokens (blockUntil statement words) fun body => ∀ stmt ∈ body, S stmt :=
  gives_block hstatement _

theorem gives_lineStatements : ∀ bound,
    Gives tokens (lineStatements statement bound) fun body => ∀ stmt ∈ body, S stmt
  | 0 => hstatement.bind fun _ hfirst => gives_pure (List.forall_mem_singleton.mpr hfirst)
  | bound + 1 => hstatement.bind fun _ hfirst => (stays_accept _).bind fun _ _ =>
    .ite (stays_kind.bind fun _ _ => .ite (gives_pure (List.forall_mem_singleton.mpr hfirst)) <|
        (gives_lineStatements bound).bind fun _ hrest =>
          gives_pure (List.forall_mem_cons.mpr ⟨hfirst, hrest⟩))
      (gives_pure (List.forall_mem_singleton.mpr hfirst))

theorem gives_line : Gives tokens (line statement) fun body => ∀ stmt ∈ body, S stmt :=
  stays_remaining.bind fun _ _ => gives_lineStatements hstatement _

theorem gives_countedBody : Gives tokens (countedBody statement) fun body => ∀ stmt ∈ body, S stmt :=
  (gives_blockUntil hstatement _).bind fun _ hbody => (stays_require _ _).bind fun _ _ =>
    (stays_accept _).bind fun _ _ => gives_pure hbody

theorem gives_members : ∀ bound, Gives tokens (members statement bound) fun body => ∀ stmt ∈ body, S stmt
  | 0 => gives_pure nofun
  | bound + 1 => stays_dropSeparators.bind fun _ _ => stays_kind.bind fun _ _ =>
    .ite (gives_pure nofun) <| .ite
      (hstatement.bind fun _ hfirst => stays_statementEnd.bind fun _ _ =>
        (gives_members bound).bind fun _ hrest =>
          gives_pure (List.forall_mem_cons.mpr ⟨hfirst, hrest⟩))
      fun _ _ _ _ failed => nomatch failed

end

/-! ## Parts of declarations -/

theorem stays_arrayBound : Stays tokens arrayBound := by
  refine stays_kind.bind fun found _ => ?_
  split
  · split
    · exact stays_advance.bind fun _ _ => gives_pure trivial
    · exact gives_expected _
  · exact gives_expected _

theorem stays_outsideProcedure (around : Enclosing) : Stays tokens (outsideProcedure around) :=
  .ite (gives_failAt _) (gives_pure trivial)

theorem stays_propertyForm : Stays tokens propertyForm :=
  (stays_accept _).bind fun _ _ => .ite (gives_pure trivial) <| (stays_accept _).bind fun _ _ =>
    .ite (gives_pure trivial) <| (stays_accept _).bind fun _ _ =>
      .ite (gives_pure trivial) (gives_expected _)

/-! ## What holds of all statements -/

/-- From a page of tokens the readers of names, of literals, of expressions and of simple statements give
what has a property, and any other statement has it if what is written in it does. -/
structure Closed (tokens : List Token) (N : Name → Prop) (L : Literal → Prop) (E : Expr → Prop)
    (S : Stmt → Prop) : Prop where
  identifier : Gives tokens identifier N
  literal : Gives tokens literal L
  parse : Gives tokens Expr.parse E
  /-- The condition of a loop without one. -/
  always (s : Span) : E (.literal s (.boolean true))
  /-- The step of a loop without one. -/
  one (s : Span) : E (.literal s (.number 1))
  pageContent : Gives tokens pageContent S
  assignmentOrCall : Gives tokens assignmentOrCall S
  markedAssignment : Gives tokens markedAssignment S
  callStatement : Gives tokens callStatement S
  redimStatement : Gives tokens redimStatement S
  dim {s : Span} {name : Name} {bounds : Option (List Nat)} {access : Access} (hname : N name) :
    S (.dim s name bounds access)
  const {s : Span} {name : Name} {value : Literal} (hname : N name) (hvalue : L value) :
    S (.const s name value)
  block {s : Span} {body : List Stmt} (hbody : ∀ stmt ∈ body, S stmt) : S (.block s body)
  exit {s : Span} {kind : ExitTarget} : S (.exit s kind)
  onError {s : Span} {kind : ErrorPolicy} : S (.onError s kind)
  optionExplicit {s : Span} {on : Bool} : S (.optionExplicit s on)
  branch {s : Span} {cond : Expr} {thenBody elseBody : List Stmt} (hcond : E cond)
    (hthen : ∀ stmt ∈ thenBody, S stmt) (helse : ∀ stmt ∈ elseBody, S stmt) :
    S (.branch s cond thenBody elseBody)
  loop {s : Span} {cond : Expr} {body : List Stmt} {untilTrue testsAfter : Bool} (hcond : E cond)
    (hbody : ∀ stmt ∈ body, S stmt) : S (.loop s cond body untilTrue testsAfter)
  count {s : Span} {var : Name} {first last step : Expr} {body : List Stmt} (hvar : N var)
    (hfirst : E first) (hlast : E last) (hstep : E step) (hbody : ∀ stmt ∈ body, S stmt) :
    S (.count s var first last step body)
  forEach {s : Span} {var : Name} {collection : Expr} {body : List Stmt} (hvar : N var)
    (hcollection : E collection) (hbody : ∀ stmt ∈ body, S stmt) : S (.forEach s var collection body)
  select {s : Span} {subject : Expr} {cases : List Case} (hsubject : E subject)
    (hconditions : ∀ found ∈ cases, ∀ es ∈ found.conditions, ∀ e ∈ es, E e)
    (hbodies : ∀ found ∈ cases, ∀ stmt ∈ found.body, S stmt) : S (.select s subject cases)
  withObject {s : Span} {object : Expr} {body : List Stmt} (hobject : E object)
    (hbody : ∀ stmt ∈ body, S stmt) : S (.withObject s object body)
  procedure {s : Span} {decl : Procedure} (hname : N decl.name) (hparams : ∀ p ∈ decl.params, N p.name)
    (hbody : ∀ stmt ∈ decl.body, S stmt) : S (.procedure s decl)
  property {s : Span} {form : PropertyForm} {decl : Procedure} {isDefault : Bool} (hname : N decl.name)
    (hparams : ∀ p ∈ decl.params, N p.name) (hbody : ∀ stmt ∈ decl.body, S stmt) :
    S (.property s form decl isDefault)
  classDecl {s : Span} {name : Name} {members : List Stmt} (hname : N name)
    (hmembers : ∀ stmt ∈ members, S stmt) : S (.classDecl s name members)

namespace Closed

variable {N : Name → Prop} {L : Literal → Prop} {E : Expr → Prop} {S : Stmt → Prop}
  {statement : Parse Stmt} {inner : Enclosing → Parse Stmt} (h : Closed tokens N L E S)
include h

/-! ## Fixed forms -/

theorem gives_exitStatement : Gives tokens exitStatement S := by
  refine (stays_require _ _).bind fun start _ => stays_kind.bind fun found _ => ?_
  have leave (target : ExitTarget) : Gives tokens (advance >>= fun stop =>
      pure (Stmt.exit (start.merge stop) target)) S :=
    stays_advance.bind fun _ _ => gives_pure h.exit
  split
  · exact leave _
  · exact leave _
  · exact leave _
  · exact leave _
  · exact leave _
  · exact gives_expected _

theorem gives_optionStatement : Gives tokens optionStatement S := by
  refine (stays_require _ _).bind fun start _ => (stays_require _ _).bind fun _ _ => ?_
  have switched (on : Bool) : Gives tokens (previous >>= fun p =>
      pure (Stmt.optionExplicit (start.merge p) on)) S :=
    stays_previous.bind fun _ _ => gives_pure h.optionExplicit
  exact (stays_accept _).bind fun _ _ => .ite (switched false)
    ((stays_accept _).bind fun _ _ => switched true)

theorem gives_onErrorStatement : Gives tokens onErrorStatement S := by
  refine (stays_require _ _).bind fun start _ => (stays_require _ _).bind fun _ _ => ?_
  have policy (kind : ErrorPolicy) : Gives tokens (previous >>= fun p =>
      pure (Stmt.onError (start.merge p) kind)) S :=
    stays_previous.bind fun _ _ => gives_pure h.onError
  refine (stays_accept _).bind fun _ _ => .ite ((stays_require _ _).bind fun _ _ => policy _) ?_
  exact (stays_require _ _).bind fun _ _ => (stays_require _ _).bind fun _ _ => policy _

/-! ## Variables and constants -/

theorem gives_declaredVariable (access : Access) : Gives tokens (declaredVariable access) S := by
  refine stays_span.bind fun start _ => h.identifier.bind fun name hname => ?_
  have declared (bounds : Option (List Nat)) : Gives tokens (previous >>= fun p =>
      pure (Stmt.dim (start.merge p) name bounds access)) S :=
    stays_previous.bind fun _ _ => gives_pure (h.dim hname)
  have closed (bounds : List Nat) : Gives tokens (requireSymbol .rparen >>= fun _ =>
      previous >>= fun p => pure (Stmt.dim (start.merge p) name (some bounds) access)) S :=
    (stays_require _ _).bind fun _ _ => declared _
  refine (stays_accept _).bind fun _ _ => .ite (stays_kind.bind fun _ _ => ?_) (declared none)
  exact .ite (closed []) ((gives_commaList stays_arrayBound).bind fun bounds _ => closed bounds)

theorem gives_variableGroup (start : Span) (access : Access) : Gives tokens (variableGroup start access) S :=
  (gives_commaList (h.gives_declaredVariable access)).bind fun _ hbody => stays_previous.bind fun _ _ =>
    gives_pure (h.block hbody)

/-- A constant has the property wherever it is said to stand. -/
theorem gives_constant : Gives tokens constant fun stmt => S stmt ∧ ∀ s, S (stmt.withSpan s) :=
  stays_span.bind fun _ _ => h.identifier.bind fun _ hname => (stays_require _ _).bind fun _ _ =>
    h.literal.bind fun _ hvalue => stays_previous.bind fun _ _ =>
      gives_pure ⟨h.const hname hvalue, fun _ => h.const hname hvalue⟩

theorem gives_constantGroup (start : Span) : Gives tokens (constantGroup start) S := by
  refine (stays_require _ _).bind fun _ _ => (gives_commaList h.gives_constant).bind
    fun found hfound => stays_previous.bind fun _ _ => ?_
  have group (s : Span) : S (.block s found) := h.block fun stmt mem => (hfound stmt mem).1
  match found with
  | [] => exact gives_pure (group _)
  | [single] => exact gives_pure ((hfound single (List.mem_singleton.mpr rfl)).2 _)
  | _ :: _ :: _ => exact gives_pure (group _)

/-! ## Branches and loops -/

section

variable (hstatement : Gives tokens statement S)
include hstatement

theorem gives_branches : ∀ bound, Gives tokens (branches statement bound) fun x =>
    (∀ stmt ∈ x.1, S stmt) ∧ ∀ stmt ∈ x.2, S stmt
  | 0 => gives_pure ⟨nofun, nofun⟩
  | bound + 1 => by
    refine (gives_blockUntil hstatement _).bind fun thenBody hthen => stays_kind.bind fun found _ => ?_
    split
    · refine stays_advance.bind fun start _ => h.parse.bind fun cond hcond => ?_
      refine (stays_require _ _).bind fun _ _ => (gives_branches bound).bind fun x hx => ?_
      refine stays_previous.bind fun _ _ => gives_pure ⟨hthen, List.forall_mem_singleton.mpr ?_⟩
      exact h.branch hcond hx.1 hx.2
    · exact stays_advance.bind fun _ _ => (gives_blockUntil hstatement _).bind fun _ helse =>
        gives_pure ⟨hthen, helse⟩
    · exact gives_pure ⟨hthen, nofun⟩

theorem gives_ifStatement : Gives tokens (ifStatement statement) S := by
  refine (stays_require _ _).bind fun start _ => h.parse.bind fun cond hcond => ?_
  refine (stays_require _ _).bind fun _ _ => stays_kind.bind fun found _ => ?_
  have branch {thenBody elseBody : List Stmt} (hthen : ∀ stmt ∈ thenBody, S stmt)
      (helse : ∀ stmt ∈ elseBody, S stmt) : Gives tokens (previous >>= fun p =>
        pure (Stmt.branch (start.merge p) cond thenBody elseBody)) S :=
    stays_previous.bind fun _ _ => gives_pure (h.branch hcond hthen helse)
  refine .ite (stays_remaining.bind fun _ _ => ?_) ?_
  · exact (h.gives_branches hstatement _).bind fun _ hx => (stays_require _ _).bind fun _ _ =>
      (stays_require _ _).bind fun _ _ => branch hx.1 hx.2
  · refine (gives_line hstatement).bind fun _ hthen => (stays_accept _).bind fun _ _ => ?_
    exact .ite ((gives_line hstatement).bind fun _ helse => branch hthen helse) (branch hthen nofun)

theorem gives_whileStatement : Gives tokens (whileStatement statement) S :=
  (stays_require _ _).bind fun _ _ => h.parse.bind fun _ hcond =>
    (gives_blockUntil hstatement _).bind fun _ hbody => (stays_require _ _).bind fun _ _ =>
      stays_previous.bind fun _ _ => gives_pure (h.loop hcond hbody)

omit hstatement in
theorem gives_loopCondition : Gives tokens loopCondition fun found => ∀ x ∈ found, E x.1 := by
  have condition (untilTrue : Bool) : Gives tokens (Expr.parse >>= fun cond =>
      pure (some (cond, untilTrue))) fun found => ∀ x ∈ found, E x.1 :=
    h.parse.bind fun _ hcond => gives_pure (by rintro _ ⟨⟩; exact hcond)
  exact (stays_accept _).bind fun _ _ => .ite (condition false) <| (stays_accept _).bind fun _ _ =>
    .ite (condition true) (gives_pure nofun)

theorem gives_doStatement : Gives tokens (doStatement statement) S := by
  refine (stays_require _ _).bind fun start _ => h.gives_loopCondition.bind fun before hbefore => ?_
  refine (gives_blockUntil hstatement _).bind fun body hbody => (stays_require _ _).bind fun _ _ => ?_
  match before with
  | some (cond, untilTrue) =>
    exact stays_previous.bind fun _ _ => gives_pure (h.loop (hbefore _ rfl) hbody)
  | none =>
    refine h.gives_loopCondition.bind fun behind hbehind => stays_previous.bind fun _ _ => ?_
    match behind with
    | some (cond, untilTrue) => exact gives_pure (h.loop (hbehind _ rfl) hbody)
    | none => exact gives_pure (h.loop (h.always _) hbody)

theorem gives_forStatement : Gives tokens (forStatement statement) S := by
  refine (stays_require _ _).bind fun start _ => (stays_accept _).bind fun _ _ => .ite ?_ ?_
  · exact h.identifier.bind fun _ hvar => (stays_require _ _).bind fun _ _ =>
      h.parse.bind fun _ hcollection => (gives_countedBody hstatement).bind fun _ hbody =>
        stays_previous.bind fun _ _ => gives_pure (h.forEach hvar hcollection hbody)
  · refine h.identifier.bind fun var hvar => (stays_require _ _).bind fun _ _ => ?_
    refine h.parse.bind fun first hfirst => (stays_require _ _).bind fun _ _ => ?_
    refine h.parse.bind fun last hlast => (stays_accept _).bind fun _ _ => ?_
    have counted {step : Expr} (hstep : E step) : Gives tokens (countedBody statement >>= fun body =>
        previous >>= fun p => pure (Stmt.count (start.merge p) var first last step body)) S :=
      (gives_countedBody hstatement).bind fun _ hbody => stays_previous.bind fun _ _ =>
        gives_pure (h.count hvar hfirst hlast hstep hbody)
    exact .ite (h.parse.bind fun _ hstep => counted hstep) (counted (h.one _))

theorem gives_cases : ∀ bound, Gives tokens (cases statement bound) fun found => ∀ case ∈ found,
    (∀ es ∈ case.conditions, ∀ e ∈ es, E e) ∧ ∀ stmt ∈ case.body, S stmt
  | 0 => gives_pure nofun
  | bound + 1 => by
    refine stays_dropSeparators.bind fun _ _ => stays_kind.bind fun _ _ => .ite (gives_pure nofun) ?_
    refine (stays_require _ _).bind fun _ _ => (stays_accept _).bind fun _ _ => ?_
    have further {conditions : Option (List Expr)} (hconditions : ∀ es ∈ conditions, ∀ e ∈ es, E e) :
        Gives tokens (blockUntil statement [.caseWord, .endWord] >>= fun body =>
          cases statement bound >>= fun rest => pure (.mk conditions body :: rest)) fun found =>
            ∀ case ∈ found, (∀ es ∈ case.conditions, ∀ e ∈ es, E e) ∧ ∀ stmt ∈ case.body, S stmt :=
      (gives_blockUntil hstatement _).bind fun _ hbody => (gives_cases bound).bind fun _ hrest =>
        gives_pure (List.forall_mem_cons.mpr ⟨⟨hconditions, hbody⟩, hrest⟩)
    have conditions : Gives tokens (some <$> commaList Expr.parse) fun conditions =>
        ∀ es ∈ conditions, ∀ e ∈ es, E e :=
      (gives_commaList h.parse).map fun _ hes => by rintro _ ⟨⟩; exact hes
    exact .ite (further nofun) (conditions.bind fun _ h => further h)

theorem gives_selectStatement : Gives tokens (selectStatement statement) S := by
  refine (stays_require _ _).bind fun start _ => (stays_require _ _).bind fun _ _ => ?_
  refine h.parse.bind fun subject hsubject => stays_remaining.bind fun _ _ => ?_
  refine (h.gives_cases hstatement _).bind fun found hfound => (stays_require _ _).bind fun _ _ => ?_
  exact (stays_require _ _).bind fun _ _ => stays_previous.bind fun _ _ => gives_pure
    (h.select hsubject (fun case mem => (hfound case mem).1) fun case mem => (hfound case mem).2)

theorem gives_withStatement : Gives tokens (withStatement statement) S :=
  (stays_require _ _).bind fun _ _ => h.parse.bind fun _ hobject =>
    (gives_blockUntil hstatement _).bind fun _ hbody => (stays_require _ _).bind fun _ _ =>
      (stays_require _ _).bind fun _ _ => stays_previous.bind fun _ _ =>
        gives_pure (h.withObject hobject hbody)

end

/-! ## Procedures and classes -/

theorem gives_namedParameter (byRef : Bool) : Gives tokens (namedParameter byRef) fun p => N p.name :=
  h.identifier.bind fun _ hname => stays_get.bind fun _ _ =>
    .ite (stays_advance.bind fun _ _ => stays_advance.bind fun _ _ => gives_pure hname)
      (gives_pure hname)

theorem gives_parameter : Gives tokens parameter fun p => N p.name :=
  (stays_accept _).bind fun byRef _ => .ite ((stays_accept _).bind fun _ _ =>
    h.gives_namedParameter byRef) (h.gives_namedParameter byRef)

theorem gives_parameters : Gives tokens parameters fun params => ∀ p ∈ params, N p.name :=
  (stays_accept _).bind fun _ _ => .ite (gives_pure nofun) <| (stays_accept _).bind fun _ _ =>
    .ite (gives_pure nofun) <| (gives_commaList h.gives_parameter).bind fun _ hparams =>
      (stays_require _ _).bind fun _ _ => gives_pure hparams

section

variable (hinner : ∀ around, Gives tokens (inner around) S)
include hinner

theorem gives_namedProcedure (isSub : Bool) (start : Span) (access : Access) :
    Gives tokens (namedProcedure inner isSub start access) S :=
  h.identifier.bind fun _ hname => h.gives_parameters.bind fun _ hparams =>
    (gives_blockUntil (hinner _) _).bind fun _ hbody => (stays_require _ _).bind fun _ _ =>
      (stays_require _ _).bind fun _ _ => stays_previous.bind fun _ _ =>
        gives_pure (h.procedure hname hparams hbody)

theorem gives_procedureFrom (around : Enclosing) (start : Span) (access : Access) :
    Gives tokens (procedureFrom inner around start access) S :=
  (stays_outsideProcedure around).bind fun _ _ => (stays_accept _).bind fun isSub _ =>
    .ite ((stays_require _ _).bind fun _ _ => h.gives_namedProcedure hinner isSub start access)
      (h.gives_namedProcedure hinner isSub start access)

theorem gives_propertyFrom (around : Enclosing) (start : Span) (access : Access) (isDefault : Bool) :
    Gives tokens (propertyFrom inner around start access isDefault) S :=
  .ite (gives_failAt _) <| (stays_require _ _).bind fun _ _ => stays_propertyForm.bind fun _ _ =>
    h.identifier.bind fun _ hname => h.gives_parameters.bind fun _ hparams =>
      (gives_blockUntil (hinner _) _).bind fun _ hbody => (stays_require _ _).bind fun _ _ =>
        (stays_require _ _).bind fun _ _ => stays_previous.bind fun _ _ =>
          gives_pure (h.property hname hparams hbody)

theorem gives_declarationAt (around : Enclosing) (start : Span) (access : Access) (isDefault : Bool) :
    Gives tokens (declarationAt inner around start access isDefault) S := by
  refine stays_kind.bind fun found _ => ?_
  split
  · exact h.gives_procedureFrom hinner around start access
  · exact h.gives_procedureFrom hinner around start access
  · exact h.gives_propertyFrom hinner around start access isDefault
  · exact .ite (gives_expected _) (.ite (h.gives_constantGroup start) (h.gives_variableGroup start access))

theorem gives_modifiedDeclaration (around : Enclosing) :
    Gives tokens (modifiedDeclaration inner around) S := by
  refine stays_span.bind fun start _ => (stays_accept _).bind fun isPrivate _ => ?_
  have behind (access : Access) : Gives tokens (declarationBehind inner around start access) S :=
    (stays_accept _).bind fun isDefault _ => h.gives_declarationAt hinner around start access isDefault
  exact .ite ((stays_require _ _).bind fun _ _ => behind _) (behind _)

theorem gives_classStatement (around : Enclosing) : Gives tokens (classStatement inner around) S :=
  (stays_outsideProcedure around).bind fun _ _ => (stays_require _ _).bind fun _ _ =>
    h.identifier.bind fun _ hname => stays_remaining.bind fun _ _ =>
      (gives_members (hinner _) _).bind fun _ hmembers => (stays_require _ _).bind fun _ _ =>
        (stays_require _ _).bind fun _ _ => stays_previous.bind fun _ _ =>
          gives_pure (h.classDecl hname hmembers)

/-! ## One statement -/

theorem gives_statementWith (around : Enclosing) : Gives tokens (statementWith inner around) S := by
  refine stays_get.bind fun here _ => ?_
  cases here.kind with
  | text | includeFile | openPrint => exact h.pageContent
  | ident name => exact .ite h.gives_onErrorStatement (.ite h.markedAssignment h.assignmentOrCall)
  | symbol sign =>
    cases sign with
    | dot => exact h.assignmentOrCall
    | _ => exact gives_expected _
  | keyword word =>
    cases word with
    | dimWord => exact stays_advance.bind fun start _ => h.gives_variableGroup start .isPublic
    | publicWord | privateWord => exact h.gives_modifiedDeclaration hinner around
    | constWord => exact stays_span.bind fun start _ => h.gives_constantGroup start
    | reDimWord => exact h.redimStatement
    | functionWord | subWord =>
      exact stays_span.bind fun start _ => h.gives_procedureFrom hinner around start .isPublic
    | propertyWord =>
      exact stays_span.bind fun start _ => h.gives_propertyFrom hinner around start .isPublic false
    | classWord => exact h.gives_classStatement hinner around
    | ifWord => exact h.gives_ifStatement (hinner around)
    | whileWord => exact h.gives_whileStatement (hinner around)
    | doWord => exact h.gives_doStatement (hinner around)
    | forWord => exact h.gives_forStatement (hinner around)
    | selectWord => exact h.gives_selectStatement (hinner around)
    | withWord => exact h.gives_withStatement (hinner around)
    | exitWord => exact h.gives_exitStatement
    | optionWord => exact h.gives_optionStatement
    | callWord => exact h.callStatement
    | setWord => exact h.markedAssignment
    | _ => exact gives_expected _
  | _ => exact gives_expected _

end

/-! ## Programs -/

theorem gives_parseAt : ∀ bound around, Gives tokens (Stmt.parseAt bound around) S
  | 0, _ => gives_failAt _
  | bound + 1, around => h.gives_statementWith (gives_parseAt bound) around

theorem gives_program : Gives tokens program fun body => ∀ stmt ∈ body, S stmt :=
  stays_remaining.bind fun bound _ => (gives_block (h.gives_parseAt bound _) _).bind fun _ hbody =>
    stays_kind.bind fun _ _ => .ite (gives_pure hbody) (gives_expected _)

omit h in
/-- All statements of a program have the property. -/
theorem of_program {region : Region} {source : String} {body : List Stmt}
    (h : Closed (tokensOf region source) N L E S) (parsed : programOf? region source = .ok body) :
    ∀ stmt ∈ body, S stmt := by
  obtain ⟨_, -, all⟩ := (h.gives_program _ (List.suffix_refl _)).exists_of_first parsed
  exact all

end Closed

end Parse

end PageScript
