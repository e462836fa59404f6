import PageScript.Proofs.Number.Nearest
import PageScript.Proofs.Syntax.Display.Statements
import PageScript.Proofs.Syntax.Origins.Readers
import PageScript.Proofs.Token.Guarded
import PageScript.Proofs.Token.Standing

/-!
# Proofs/Syntax/Display/Source — what is read from a source is determined by its display

Names in a source are words that are not reserved (`Name.isVariable_of_mem`), so whatever the readers make
of its tokens can be shown without loss, if the numbers among them are finite.  Two programs or expressions
that are displayed alike are therefore the same, up to what the display leaves out
(`shapes_eq_of_displays_eq`).
-/

namespace PageScript

/-! ## Names in a source -/

namespace Lexeme

variable {c : Char} {rest : List Char} {name : Name}

theorem ne_ident_of_numberToken (value : Option Float) : numberToken value ≠ .token (.ident name) := by
  cases value <;> rintro ⟨⟩

/-- Nothing but a letter starts a name. -/
theorem ne_ident_of_inCode (letter : c.isAlpha = false) : (inCode c rest).1 ≠ .token (.ident name) := by
  fun_cases inCode c rest with
  | case2 _ _ _ letter' => cases letter.symm.trans letter'
  | case3 => exact ne_ident_of_numberToken _
  | case8 | case9 | case10 => dsimp only; split <;> rintro ⟨⟩
  | case15 | case16 | case17 | case18 =>
    dsimp only
    split <;> first | exact ne_ident_of_numberToken _ | rintro ⟨⟩
  | case6 | case7 | case19 | case20 => split <;> rintro ⟨⟩
  | _ => rintro ⟨⟩

/-- A word that is a name is no reserved one. -/
theorem isVariable_of_ofWord (letter : c.isAlpha = true)
    (h : (ofWord (c :: rest)).1 = .token (.ident name)) : name.IsVariable := by
  have start : (c :: rest).takeWhile isWordChar = c :: rest.takeWhile isWordChar :=
    List.takeWhile_cons_of_pos (isWordChar_of_isAlpha letter)
  have inside : ∀ d ∈ (c :: rest).takeWhile isWordChar, isWordChar d = true := fun d =>
    List.all_eq_true.mp List.all_takeWhile d
  rw [ofWord] at h
  dsimp only at h
  generalize (c :: rest).takeWhile isWordChar = letters at start inside h
  split at h
  case isTrue => cases h
  case isFalse noRemark =>
    split at h
    case h_1 => cases h
    case h_2 free =>
      obtain rfl := TokenKind.ident.inj (Lexeme.token.inj h)
      have text : (Name.ofString (String.ofList letters)).text.toList = letters.map Char.toLower := by
        rw [Name.text_ofString, foldCase, String.toList_ofList, String.toList_ofList]
      refine ⟨⟨?_, ?_, ?_⟩, free⟩
      · rw [text, start]
        exact ⟨_, _, rfl, (SameLetter.isAlpha_eq (toLower_toLower c)).trans letter⟩
      · rw [text]
        exact List.forall_mem_map.mpr fun d hd =>
          (SameLetter.isWordChar_eq (toLower_toLower d)).trans (inside d hd)
      · rw [String.ofList_toList, Name.text_ofString, foldCase_foldCase]
        exact noRemark

theorem isVariable_of_inCode (h : (inCode c rest).1 = .token (.ident name)) : name.IsVariable := by
  cases letter : c.isAlpha with
  | false => exact absurd h (ne_ident_of_inCode letter)
  | true =>
    rw [inCode_of_isAlpha letter] at h
    dsimp only at h
    exact isVariable_of_ofWord letter h

end Lexeme

/-- Literal text holds no name. -/
theorem TokenKind.ne_ident_of_inMarkup (c : Char) (rest : List Char) (name : Name) :
    (Lexeme.inMarkup c rest).1 ≠ .ident name := by
  intro same
  have admits := Lexeme.admits_inMarkup c rest
  rw [same] at admits
  cases admits with
  | opener h => cases h

/-- The names in a source are words that are not reserved. -/
theorem Name.isVariable_of_mem {region : Region} {source : String} {t : Token}
    (ht : t ∈ tokensOf region source) {name : Name} (kind : t.kind = .ident name) : name.IsVariable := by
  rw [← map_token_tilesOf] at ht
  obtain ⟨tile, mem, rfl⟩ := List.mem_map.mp ht
  have inside := (isTiling_tilesOf region source).nonempty tile mem (by rw [kind]; exact nofun)
  obtain ⟨q, c, rest, -, found, -⟩ := exists_comesTo_of_mem mem inside
  rw [kind] at found
  cases region : q.region with
  | code =>
    rw [Place.lexeme_code region] at found
    exact Lexeme.isVariable_of_inCode (congrArg Prod.fst found)
  | markup =>
    rw [Place.lexeme_markup region] at found
    exact absurd (Lexeme.token.inj (congrArg Prod.fst found)) (TokenKind.ne_ident_of_inMarkup c rest name)

/-! ## Tokens that can be shown -/

/-- A name that the token holds is that of a variable, and a number is finite. -/
def TokenKind.IsShown : TokenKind → Prop
  | .ident name => name.IsVariable
  | .number value => Number.isFinite value = true
  | _ => True

theorem TokenKind.IsShown.literal {found : TokenKind} {value : Literal} (h : found.IsShown)
    (hvalue : found.literal? = some value) : value.IsShown := by
  unfold TokenKind.literal? at hvalue
  split at hvalue
  · cases hvalue
    exact h
  all_goals first | cases hvalue; exact trivial | cases hvalue

theorem Expr.IsShown.withSpan {e : Expr} (h : e.IsShown) (s : Span) : (e.withSpan s).IsShown := by
  cases h with
  | literal h => exact .literal h
  | var h => exact .var h
  | member hobject h => exact .member hobject h
  | withMember h => exact .withMember h
  | call hcallee hargs => exact .call hcallee hargs
  | create some_name h => exact .create some_name h
  | binary hleft hright => exact .binary hleft hright
  | unary h => exact .unary h

namespace Parse

variable {tokens : List Token} (shown : ∀ t ∈ tokens, t.kind.IsShown)
include shown

theorem shows_kind : Gives tokens kind TokenKind.IsShown := by
  rintro ⟨ts, p⟩ suffix _ _ ⟨⟩
  refine ⟨suffix, ?_⟩
  cases ts with
  | nil => exact trivial
  | cons t ts => exact shown t (suffix.subset List.mem_cons_self)

theorem shows_identifier : Gives tokens identifier Name.IsVariable :=
  (shows_kind shown).bind fun found hfound => by
    split
    · exact stays_advance.bind fun _ _ => gives_pure hfound
    · exact gives_expected _

theorem shows_memberName : Gives tokens memberName Name.IsMember :=
  (shows_kind shown).bind fun found hfound => by
    split
    · exact stays_advance.bind fun _ _ => gives_pure hfound.1
    · refine stays_advance.bind fun _ _ => gives_pure ?_
      rw [Name.IsMember, Name.text_ofString, Keyword.foldCase_spelling]
      exact Keyword.isWord_spelling _
    · exact gives_expected _

theorem shows_signedNumber : Gives tokens signedNumber fun x => Number.isFinite x.1 = true := by
  have number {apply : Float → Float} (h : ∀ x, Number.isFinite x = true → Number.isFinite (apply x) = true)
      (start : Span) : Gives tokens (numberBehind apply start) fun x => Number.isFinite x.1 = true :=
    (shows_kind shown).bind fun found hfound => by
      split
      · exact stays_advance.bind fun _ _ => gives_pure (h _ hfound)
      · exact gives_expected _
  refine stays_span.bind fun start _ => (stays_accept _).bind fun _ _ => ?_
  refine .ite (number (fun x h => Number.isFinite_neg h) start) ((stays_accept _).bind fun _ _ => ?_)
  exact .ite (number (fun _ h => h) start) (number (fun _ h => h) start)

theorem shows_literal : Gives tokens literal Literal.IsShown := by
  have signed : Gives tokens (signedNumber >>= fun x => pure (Literal.number x.1)) Literal.IsShown :=
    (shows_signedNumber shown).bind fun _ h => gives_pure h
  refine (shows_kind shown).bind fun found hfound => ?_
  split
  · exact signed
  · exact signed
  · exact signed
  · split
    · rename_i h
      exact stays_advance.bind fun _ _ => gives_pure (hfound.literal h)
    · exact gives_expected _

/-! ## Expressions -/

theorem shows_chainHead : Gives tokens chainHead Expr.IsShown :=
  stays_span.bind fun _ _ => (shows_kind shown).bind fun found hfound => by
    split
    · exact stays_advance.bind fun _ _ => gives_pure (.var hfound)
    · exact stays_advance.bind fun _ _ => (shows_memberName shown).bind fun _ hname =>
        stays_previous.bind fun _ _ => gives_pure (.withMember hname)
    · exact gives_expected _

theorem shows_createdPath : ∀ bound, Gives tokens (createdPath bound) fun path => ∀ name ∈ path, name.IsMember
  | 0 => gives_pure nofun
  | bound + 1 => (stays_accept _).bind fun _ _ => .ite
      ((shows_memberName shown).bind fun _ hname => (shows_createdPath bound).bind fun _ hpath =>
        gives_pure (List.forall_mem_cons.mpr ⟨hname, hpath⟩))
      (gives_pure nofun)

section

variable {expression : Parse Expr} (hexpression : Gives tokens expression Expr.IsShown)
include hexpression

omit shown in
theorem shows_argument : Gives tokens (argument expression) fun arg => arg.value.IsShown :=
  stays_get.bind fun _ _ => hexpression.bind fun _ hvalue => stays_get.bind fun _ _ => gives_pure hvalue

/-- A chain can be shown, and the place in front of its last parentheses is on the page. -/
theorem shows_links : ∀ bound {chain : Expr} {opening : Option Cursor}, chain.IsShown →
    (∀ before ∈ opening, before.rest <:+ tokens) → Gives tokens (links expression bound chain opening)
      fun x => x.1.IsShown ∧ ∀ before ∈ x.2, before.rest <:+ tokens
  | 0, _, _, hchain, hopening => gives_pure ⟨hchain, hopening⟩
  | bound + 1, chain, opening, hchain, hopening => by
    have here : Gives tokens (get : Parse Cursor) fun here => here.rest <:+ tokens :=
      fun _ suffix _ _ read => by
        cases read
        exact ⟨suffix, suffix⟩
    refine here.bind fun here within => ?_
    split
    · refine .ite (stays_advance.bind fun _ _ => (shows_memberName shown).bind fun _ hname =>
        stays_previous.bind fun _ _ => shows_links bound (.member hchain hname) fun _ none => nomatch none) ?_
      exact gives_pure ⟨hchain, hopening⟩
    · have behind {args : List Arg} (hargs : ∀ arg ∈ args, arg.value.IsShown) :
          Gives tokens (requireSymbol .rparen >>= fun _ => previous >>= fun s =>
            links expression bound (.call (chain.span.merge s) chain args) (some here)) fun x =>
              x.1.IsShown ∧ ∀ before ∈ x.2, before.rest <:+ tokens :=
        (stays_require _ _).bind fun _ _ => stays_previous.bind fun _ _ =>
          shows_links bound (.call hchain hargs) (by rintro _ ⟨⟩; exact within)
      refine stays_advance.bind fun _ _ => stays_get.bind fun inside _ => .ite (behind nofun) ?_
      exact (gives_commaList (shows_argument hexpression)).bind fun _ hargs => behind hargs
    · exact gives_pure ⟨hchain, hopening⟩

theorem shows_chained (bound : Nat) {head : Expr} (h : head.IsShown) :
    Gives tokens (links expression bound head none) fun x =>
      x.1.IsShown ∧ ∀ before ∈ x.2, before.rest <:+ tokens :=
  shows_links shown hexpression bound h nofun

theorem shows_primary (bound : Nat) : Gives tokens (primary expression bound) Expr.IsShown := by
  have chained {head : Expr} (hhead : head.IsShown) :
      Gives tokens (links expression bound head none >>= fun x => pure x.1) Expr.IsShown :=
    (shows_chained shown hexpression bound hhead).bind fun _ h => gives_pure h.1
  have signed : Gives tokens (signedNumber >>= fun x => pure (Expr.literal x.2 (.number x.1))) Expr.IsShown :=
    (shows_signedNumber shown).bind fun _ h => gives_pure (.literal h)
  refine stays_span.bind fun start _ => (shows_kind shown).bind fun found hfound => ?_
  split
  · rename_i value hvalue
    exact stays_advance.bind fun _ _ => gives_pure (.literal (hfound.literal hvalue))
  · split
    · exact signed
    · exact signed
    · refine stays_advance.bind fun _ _ => (shows_identifier shown).bind fun _ hname => ?_
      refine (shows_createdPath shown bound).bind fun _ hpath => stays_previous.bind fun _ _ => ?_
      exact gives_pure (.create (List.cons_ne_nil _ _) (List.forall_mem_cons.mpr ⟨hname.1, hpath⟩))
    · exact stays_advance.bind fun _ _ => hexpression.bind fun _ hinner => (stays_require _ _).bind fun _ _ =>
        stays_previous.bind fun _ _ => chained (hinner.withSpan _)
    · exact (shows_chainHead shown).bind fun _ hhead => chained hhead
    · exact (shows_chainHead shown).bind fun _ hhead => chained hhead
    · exact gives_expected _

end

section

variable {operand : Nat → Parse Expr} (hoperand : ∀ level, Gives tokens (operand level) Expr.IsShown)
include hoperand

theorem shows_firstOperand (bound level : Nat) :
    Gives tokens (firstOperand operand bound level) Expr.IsShown := by
  refine stays_get.bind fun here _ => ?_
  dsimp only
  split
  · refine .ite (stays_advance.bind fun _ _ => (hoperand _).bind fun _ h => gives_pure (.unary h)) ?_
    exact shows_primary shown (hoperand 0) bound
  · exact .ite (shows_primary shown (hoperand 0) bound)
      (stays_advance.bind fun _ _ => (hoperand _).bind fun _ h => gives_pure (.unary h))
  · exact .ite (shows_primary shown (hoperand 0) bound) (stays_advance.bind fun _ _ => hoperand _)
  · exact shows_primary shown (hoperand 0) bound

omit shown in
theorem shows_rightOperand (op : BinaryOp) : Gives tokens (rightOperand operand op) Expr.IsShown :=
  stays_kind.bind fun _ _ => .ite (hoperand _) (hoperand _)

omit shown in
theorem shows_extend (level : Nat) : ∀ bound {left : Expr}, left.IsShown →
    Gives tokens (extend operand level bound left) Expr.IsShown
  | 0, _, hleft => gives_pure hleft
  | bound + 1, left, hleft => stays_kind.bind fun found _ => by
    split
    · refine .ite (stays_advance.bind fun _ _ => (shows_rightOperand hoperand _).bind fun _ hright => ?_)
        (gives_pure hleft)
      exact shows_extend level bound (.binary hleft hright)
    · exact gives_pure hleft

end

theorem shows_exprAt : ∀ bound level, Gives tokens (Expr.parseAt bound level) Expr.IsShown
  | 0, _ => gives_failAt _
  | bound + 1, level => (shows_firstOperand shown (shows_exprAt bound) bound level).bind fun _ h =>
    shows_extend (shows_exprAt bound) level bound h

theorem shows_expr : Gives tokens Expr.parse Expr.IsShown :=
  stays_remaining.bind fun _ _ => shows_exprAt shown _ _

/-! ## Statements -/

/-- A chain that is no part of an expression. -/
theorem shows_chain {S : Stmt → Prop} {f : Expr × Option Cursor → Parse Stmt}
    (hnext : ∀ x : Expr × Option Cursor, x.1.IsShown → (∀ before ∈ x.2, before.rest <:+ tokens) →
      Gives tokens (f x) S) :
    Gives tokens (chainHead >>= fun head => remaining >>= fun bound =>
      links Expr.parse bound head none >>= f) S :=
  (shows_chainHead shown).bind fun _ hhead => stays_remaining.bind fun bound _ =>
    (shows_chained shown (shows_expr shown) bound hhead).bind fun x hx => hnext x hx.1 hx.2

theorem shows_argumentsOf {callee : Expr} (h : callee.IsShown) :
    Gives tokens (argumentsOf callee) Stmt.IsShown :=
  (gives_commaList (shows_argument (shows_expr shown))).bind fun _ hargs => stays_previous.bind fun _ _ =>
    gives_pure (.call (.call h hargs))

omit shown in
theorem isShown_callOfChain {chain : Expr} (h : chain.IsShown) (s : Span) (endsInArguments : Bool) :
    (Stmt.call s (callOfChain chain endsInArguments)).IsShown := by
  cases chain with
  | call s callee args =>
    cases h with
    | call hcallee hargs =>
      match args with
      | [] => exact .call (.call hcallee hargs)
      | [.mk value byValue] =>
        have hvalue : value.IsShown := hargs _ List.mem_cons_self
        cases endsInArguments <;> exact .call (.call hcallee (List.forall_mem_singleton.mpr hvalue))
      | _ :: _ :: _ => exact .call (.call hcallee hargs)
  | _ => exact .call (.call h nofun)

theorem shows_assignmentOrCall : Gives tokens assignmentOrCall Stmt.IsShown := by
  rw [assignmentOrCall_eq]
  refine shows_chain shown fun (chain, opening) hchain hopening => ?_
  refine (stays_accept _).bind fun _ _ => .ite ?_ (stays_kind.bind fun found _ => .ite ?_ ?_)
  · exact (shows_expr shown).bind fun _ hvalue => gives_pure (.assign hchain hvalue)
  · exact gives_pure (isShown_callOfChain hchain _ _)
  · cases chain with
    | call s callee args =>
      cases opening with
      | some before =>
        -- The parentheses belong to the first argument, which is read again from there.
        have back : Stays tokens (set before : Parse PUnit) := fun _ _ _ _ read => by
          cases read
          exact ⟨hopening before rfl, trivial⟩
        cases hchain with
        | call hcallee => exact back.bind fun _ _ => shows_argumentsOf shown hcallee
      | none => exact shows_argumentsOf shown hchain
    | _ => exact shows_argumentsOf shown hchain

theorem shows_markedAssignment : Gives tokens markedAssignment Stmt.IsShown :=
  stays_advance.bind fun _ _ => shows_chain shown fun _ htarget _ => (stays_require _ _).bind fun _ _ =>
    (shows_expr shown).bind fun _ hvalue => gives_pure (.assign htarget hvalue)

theorem shows_callStatement : Gives tokens callStatement Stmt.IsShown := by
  refine stays_advance.bind fun start _ => shows_chain shown fun (chain, _) hchain _ => ?_
  cases chain with
  | call s callee args =>
    cases hchain with
    | call hcallee hargs => exact gives_pure (.call (.call hcallee hargs))
  | _ => exact gives_pure (.call (.call hchain nofun))

/-! ## Page content -/

omit shown in
theorem isShown_writing {value : Expr} (h : value.IsShown) (s : Span) : (writing value s).IsShown := by
  have response : (Name.ofString "Response").IsVariable :=
    ⟨.of_chars (by decide +kernel) (by decide +kernel) (by decide +kernel), by decide +kernel⟩
  have write : (Name.ofString "Write").IsMember :=
    .of_chars (by decide +kernel) (by decide +kernel) (by decide +kernel)
  exact .call (.call (.member (.var response) write) (List.forall_mem_singleton.mpr h))

theorem shows_content : ∀ bound, Gives tokens (content bound) fun body => ∀ stmt ∈ body, stmt.IsShown
  | 0 => gives_pure nofun
  | bound + 1 => by
    have further {first : Stmt} (h : first.IsShown) :
        Gives tokens (content bound >>= fun rest => pure (first :: rest)) fun body =>
          ∀ stmt ∈ body, stmt.IsShown :=
      (shows_content bound).bind fun _ hrest => gives_pure (List.forall_mem_cons.mpr ⟨h, hrest⟩)
    refine stays_span.bind fun start _ => stays_kind.bind fun found _ => ?_
    split
    · have literal (text : String) : (Literal.string text).IsShown := trivial
      exact stays_advance.bind fun _ _ => further (isShown_writing (.literal (literal _)) _)
    · exact stays_advance.bind fun _ _ => further .directive
    · refine stays_advance.bind fun _ _ => (shows_expr shown).bind fun _ hvalue => ?_
      refine (stays_accept _).bind fun _ _ => stays_kind.bind fun _ _ => .ite (gives_expected _) ?_
      exact stays_previous.bind fun _ _ => further (isShown_writing hvalue _)
    · exact gives_pure nofun

theorem shows_pageContent : Gives tokens pageContent Stmt.IsShown :=
  stays_span.bind fun _ _ => stays_remaining.bind fun _ _ => (shows_content shown _).bind fun _ hbody =>
    stays_previous.bind fun _ _ => gives_pure (.block hbody)

/-! ## Arrays with new bounds -/

omit shown in
/-- A list starts with what its reader reads first. -/
theorem yields_commaList_first {α : Type} {item : Parse α} {c : Cursor} {Q : α → Prop}
    (h : Yields item c fun a _ => Q a) :
    Yields (commaList item) c fun as _ => ∃ a rest, as = a :: rest ∧ Q a := by
  refine yields_remaining ?_
  cases c.rest.length with
  | zero => exact h.bind fun a _ ha => yields_pure ⟨a, [], rfl, ha⟩
  | succ bound =>
    refine h.bind fun a _ ha => Yields.bind (fun _ _ _ => trivial) fun _ _ (_ : True) => ?_
    refine .ite (fun _ => ?_) fun _ => yields_pure ⟨a, [], rfl, ha⟩
    exact Yields.bind (fun _ _ _ => trivial) fun as _ (_ : True) => yields_pure ⟨a, as, rfl, ha⟩

theorem shows_resized (preserve : Bool) : Gives tokens (resized preserve) (Stmt.IsRebound preserve) :=
  stays_span.bind fun _ _ => (shows_identifier shown).bind fun _ hname => (stays_require _ _).bind fun _ _ =>
    (gives_commaList (shows_expr shown)).bind fun _ hbounds => (stays_require _ _).bind fun _ _ =>
      stays_previous.bind fun _ _ => gives_pure (.redim hname hbounds)

omit shown in
/-- Where the word for the mark stands, an array is read only if the mark is set. -/
theorem yields_resized {c : Cursor} {preserve : Bool} (h : c.kind.isWord "preserve" = true → preserve = true) :
    Yields (resized preserve) c fun stmt _ => ∃ s name bounds, stmt = .redim s name bounds preserve ∧
      (name.text = "preserve" → preserve = true) := by
  have word : Yields identifier c fun name _ => name.text = "preserve" → preserve = true := by
    refine yields_kind ?_
    split
    · rename_i name hname
      refine Yields.bind (fun _ _ _ => trivial) fun _ _ (_ : True) => yields_pure fun text => h ?_
      rw [hname, TokenKind.isWord, Name.isSpelled, text]
      decide +kernel
    · exact yields_expected _
  refine yields_span (word.bind fun name _ hname => ?_)
  refine Yields.bind (fun _ _ _ => trivial) fun _ _ (_ : True) => ?_
  refine Yields.bind (fun _ _ _ => trivial) fun bounds _ (_ : True) => ?_
  refine Yields.bind (fun _ _ _ => trivial) fun _ _ (_ : True) => ?_
  exact yields_previous (yields_pure ⟨_, name, bounds, rfl, hname⟩)

theorem shows_redimStatement : Gives tokens redimStatement Stmt.IsShown := by
  refine (stays_require _ _).bind fun start _ c suffix => ?_
  have group {preserve : Bool} {d : Cursor} (within : d.rest <:+ tokens)
      (h : d.kind.isWord "preserve" = true → preserve = true) :
      Yields (commaList (resized preserve) >>= fun body => previous >>= fun p =>
        pure (Stmt.block (start.merge p) body)) d fun stmt e => e.rest <:+ tokens ∧ stmt.IsShown := by
    intro stmt e read
    obtain ⟨body, f, listed, made⟩ := exists_of_bind read
    obtain ⟨behind, all⟩ := gives_commaList (shows_resized shown preserve) d within body f listed
    obtain ⟨_, rest, rfl, s, name, bounds, rfl, marked⟩ :=
      yields_commaList_first (yields_resized h) body f listed
    cases made
    exact ⟨behind, .redims marked all⟩
  cases marked : c.kind.isWord "preserve" with
  | true =>
    refine .of_run_eq (bind_of_ok (accept_yes marked)) ?_
    exact group (c.advance_suffix.trans suffix) fun _ => rfl
  | false =>
    refine .of_run_eq (bind_of_ok (accept_no marked)) ?_
    exact group suffix fun word => nomatch marked.symm.trans word

theorem closed_isShown : Closed tokens Name.IsVariable Literal.IsShown Expr.IsShown Stmt.IsShown where
  identifier := shows_identifier shown
  literal := shows_literal shown
  parse := shows_expr shown
  always _ := .literal trivial
  one _ := .literal (show Number.isFinite 1 = true by decide +kernel)
  pageContent := shows_pageContent shown
  assignmentOrCall := shows_assignmentOrCall shown
  markedAssignment := shows_markedAssignment shown
  callStatement := shows_callStatement shown
  redimStatement := shows_redimStatement shown
  dim := .dim
  const := .const
  block := .block
  exit := .exit
  onError := .onError
  optionExplicit := .optionExplicit
  branch := .branch
  loop := .loop
  count := .count
  forEach := .forEach
  select := .select
  withObject := .withObject
  procedure hname hparams := .procedure ⟨hname, hparams⟩
  property hname hparams := .property ⟨hname, hparams⟩
  classDecl := .classDecl

end Parse

/-! ## Sources -/

/-- Whether the number that the token is, if it is one, is finite. -/
def TokenKind.isFinite : TokenKind → Bool
  | .number value => Number.isFinite value
  | _ => true

/-- The numbers in a source are finite. -/
def HasFiniteNumbers (region : Region) (source : String) : Prop :=
  ∀ t ∈ tokensOf region source, t.kind.isFinite = true

section

variable {region region' : Region} {source source' : String}

instance : Decidable (HasFiniteNumbers region source) :=
  inferInstanceAs (Decidable (∀ t ∈ tokensOf region source, t.kind.isFinite = true))

theorem HasFiniteNumbers.isShown (h : HasFiniteNumbers region source) :
    ∀ t ∈ tokensOf region source, t.kind.IsShown := fun t ht => by
  cases kind : t.kind with
  | ident name => exact Name.isVariable_of_mem ht kind
  | number value =>
    have finite := h t ht
    rwa [kind] at finite
  | _ => exact trivial

theorem Stmt.isShown_of_program {body : List Stmt} (h : HasFiniteNumbers region source)
    (parsed : programOf? region source = .ok body) : ∀ stmt ∈ body, stmt.IsShown :=
  (Parse.closed_isShown h.isShown).of_program parsed

theorem Expr.isShown_of_expression {e : Expr} (h : HasFiniteNumbers region source)
    (parsed : expressionOf? region source = .ok e) : e.IsShown := by
  have whole : Parse.Gives (tokensOf region source) (do
      let e ← Expr.parse
      if (← Parse.kind).isEnd then pure e else Parse.expected "end of expression") Expr.IsShown :=
    (Parse.shows_expr h.isShown).bind fun _ shown => Parse.stays_kind.bind fun _ _ =>
      .ite (Parse.gives_pure shown) (Parse.gives_expected _)
  obtain ⟨_, -, shown⟩ := (whole _ (List.suffix_refl _)).exists_of_first parsed
  exact shown

/-- **The display is faithful.**  If the numbers in two sources are finite, then two programs read from them
whose statements are displayed alike are the same, up to spans and the by-value marks of arguments, and so
are two expressions. -/
theorem shapes_eq_of_displays_eq (finite : HasFiniteNumbers region source)
    (finite' : HasFiniteNumbers region' source') :
    (∀ body body', programOf? region source = .ok body → programOf? region' source' = .ok body' →
      body.map Stmt.display = body'.map Stmt.display → body.map Stmt.shape = body'.map Stmt.shape) ∧
    ∀ e e', expressionOf? region source = .ok e → expressionOf? region' source' = .ok e' →
      e.display = e'.display → e.shape = e'.shape := by
  constructor
  · intro body body' parsed parsed'
    exact map_eq_of_map_eq fun stmt mem stmt' mem' => Stmt.shape_eq_of_display_eq
      (Stmt.isShown_of_program finite parsed stmt mem) (Stmt.isShown_of_program finite' parsed' stmt' mem')
  · intro e e' parsed parsed'
    exact Expr.shape_eq_of_display_eq (Expr.isShown_of_expression finite parsed)
      (Expr.isShown_of_expression finite' parsed')

theorem exists_ok_of_map_toOption {ε α β : Type} {read : Except ε α} {f : α → β} {b : β}
    (h : read.toOption.map f = some b) : ∃ a, read = .ok a ∧ f a = b := by
  cases read with
  | error => cases h
  | ok a => exact ⟨a, rfl, Option.some.inj h⟩

/-- The marks of the arguments that the expression passes. -/
def Expr.marks : Expr → List Bool
  | .call _ _ args => args.map Arg.byValue
  | _ => []

/-- A second pair of parentheses changes how the argument is passed, and no display. -/
theorem shapes_eq_of_displays_eq_argument : ∃ body body' e e',
    programOf? .code "f(1)" = .ok body ∧ programOf? .code "f((1))" = .ok body' ∧
      body.map Stmt.display = body'.map Stmt.display ∧ body.map Stmt.shape = body'.map Stmt.shape ∧
    expressionOf? .code "f(1)" = .ok e ∧ expressionOf? .code "f((1))" = .ok e' ∧
      e.display = e'.display ∧ e.shape = e'.shape ∧ e ≠ e' := by
  obtain ⟨body, parsed, shown⟩ : ∃ body, programOf? .code "f(1)" = .ok body ∧
      body.map Stmt.display = ["(call f 1)"] := exists_ok_of_map_toOption (by decide +kernel)
  obtain ⟨body', parsed', shown'⟩ : ∃ body, programOf? .code "f((1))" = .ok body ∧
      body.map Stmt.display = ["(call f 1)"] := exists_ok_of_map_toOption (by decide +kernel)
  obtain ⟨e, read, told⟩ : ∃ e, expressionOf? .code "f(1)" = .ok e ∧
      (e.display, e.marks) = ("(call f 1)", [false]) := exists_ok_of_map_toOption (by decide +kernel)
  obtain ⟨e', read', told'⟩ : ∃ e, expressionOf? .code "f((1))" = .ok e ∧
      (e.display, e.marks) = ("(call f 1)", [true]) := exists_ok_of_map_toOption (by decide +kernel)
  have finite : HasFiniteNumbers .code "f(1)" := by decide +kernel
  have finite' : HasFiniteNumbers .code "f((1))" := by decide +kernel
  obtain ⟨programs, expressions⟩ := shapes_eq_of_displays_eq finite finite'
  obtain ⟨display, mark⟩ := Prod.mk.inj told
  obtain ⟨display', mark'⟩ := Prod.mk.inj told'
  have displays := shown.trans shown'.symm
  have displays' := display.trans display'.symm
  refine ⟨body, body', e, e', parsed, parsed', displays, programs _ _ parsed parsed' displays, read, read',
    displays', expressions _ _ read read' displays', ?_⟩
  rintro rfl
  cases mark.symm.trans mark'

end

end PageScript
