import PageScript.Proofs.Syntax.Assignments
import PageScript.Proofs.Syntax.Origins.Expressions
import PageScript.Proofs.Syntax.Rows
import PageScript.Proofs.Token.Pointed

/-!
# Proofs/Syntax/Members — all words but one name members

Whether a word is reserved is settled before it is known that it stands behind a point.  There it does
not matter: with a point and a word behind it, a chain keeps its tokens and has two more, which are one
more link (`Token.MakeUp.isReadAs_member`).  Only the word that starts a comment is no token, and leaves
a point that no expression ends with (`Token.MakeUp.ne_ok_of_rem`).  So all other words are read as
members, each of what it stands behind (`Token.members_of_words`).
-/

namespace PageScript

open Parse Grammar
open Token (next)

/-! ## What is read of tokens and nothing else -/

section

variable {ts : List Token} {last : Token} {e : Expr}

/-- A page ends with the end of the page. -/
theorem Token.IsPage.last_kind (page : IsPage (ts ++ [last])) : last.kind = .endOfPage := by
  cases page.of_suffix (List.suffix_append ts [last]) (List.cons_ne_nil _ _) with
  | last h => exact h
  | cons _ page => nomatch page

theorem ends_of_last (hlast : last.kind = .endOfPage) : (next [last]).Ends := by
  rw [Token.next_cons, hlast]
  rfl

/-- A reader that leaves nothing but the end of a page has read the page. -/
theorem Parse.run_toEnd {α : Type} {reader : Parse α} {a : α} {q : Span}
    (run : reader (.start (ts ++ [last])) = .ok (a, ⟨[last], q⟩)) (hlast : last.kind = .endOfPage)
    (item : String) : toEnd reader item (.start (ts ++ [last])) = .ok (a, ⟨[last], q⟩) := by
  have ended : (Cursor.mk [last] q).kind.isEnd = true := congrArg TokenKind.isEnd hlast
  rw [toEnd, bind_of_ok run, bind_of_ok (kind_run _), if_pos ended]
  rfl

/-- An expression in front of the end of a page is what the page is read as. -/
theorem Grammar.Expression.ofTokens? (h : Expression 0 ts e []) (hlast : last.kind = .endOfPage) :
    ∃ e', Expr.ofTokens? (ts ++ [last]) = .ok e' ∧ e'.unplaced = e := by
  obtain ⟨e', q, same, run⟩ := (h.append fun _ => (ends_of_last hlast).stopsList).parse .origin
  refine ⟨e', ?_, same⟩
  rw [Expr.ofTokens?_eq, Expr.parseWhole, run_toEnd run hlast]
  rfl

/-- A statement in front of the end of a page is the only one of the page. -/
theorem Stmt.FoundEverywhere.programOfTokens? {result : Stmt → Prop} (h : FoundEverywhere ts result)
    (hlast : last.kind = .endOfPage) :
    ∃ stmt, programOfTokens? (ts ++ [last]) = .ok [stmt] ∧ result stmt := by
  have goes (kind : TokenKind) (_ : Begins kind) : (fun _ : TokenKind => false) kind = false := rfl
  obtain ⟨stmt, q, found, run⟩ :=
    h.among ts.length ⟨false, false⟩ goes ts.length [last] .origin (ends_of_last hlast)
  have ended : (Cursor.mk [last] q).kind.isEnd = true := congrArg TokenKind.isEnd hlast
  have length : (ts ++ [last]).length = ts.length + 1 := List.length_append
  rw [bind_of_ok (statements_stop (.inl ended) fun _ stops => absurd stops Bool.false_ne_true),
    ← length] at run
  have program : Parse.program (.start (ts ++ [last])) = .ok ([stmt], ⟨[last], q⟩) :=
    run_toEnd run hlast "statement"
  exact ⟨stmt, by rw [programOfTokens?_eq, program]; rfl, found⟩

end

theorem TokenKind.memberName?_ofWord (word : List Char) :
    (TokenKind.ofWord word).memberName? = some (.ofString (String.ofList word)) := by
  rw [ofWord]
  cases reserved : Keyword.ofSpelling? (foldCase (String.ofList word)) with
  | none => rfl
  | some k =>
    have spelling := Keyword.spelling_of_ofSpelling? reserved
    refine congrArg some (Name.ofString_eq_iff.mpr ?_)
    rw [spelling, foldCase_foldCase]

/-- The members of the given names, each of the one before it. -/
def Expr.members (object : Expr) (words : List String) : Expr :=
  words.foldl (fun e word => .member .origin e (.ofString word)) object

namespace Token

/-! ## Chains -/

variable {source word : String} {ts us vs : List Token} {d m : Token} {name : Name}
  {chain head target : Expr}

/-- The tokens are the target: a name or a member of the `with` object with links behind it. -/
def AreTarget (ts : List Token) (target : Expr) : Prop :=
  ∃ head us, Head ts head us ∧ Linked head us target.unplaced []

/-- The tokens are the chain: a target, or an expression in parentheses with links behind it. -/
inductive AreChain : List Token → Expr → Prop
  | target {ts : List Token} {chain : Expr} (h : AreTarget ts chain) : AreChain ts chain
  | parens {l r : Token} {inner us : List Token} {e chain : Expr} (hl : l.kind = .symbol .lparen)
      (h : Expression 0 inner e []) (hr : r.kind = .symbol .rparen)
      (links : Linked e us chain.unplaced []) : AreChain (l :: (inner ++ r :: us)) chain

/-- With a point that touches it and a name behind that, a target is another one. -/
theorem AreTarget.member (h : AreTarget ts chain) (hd : d.kind = .symbol .dot)
    (touching : d.adjacent = true) (hm : m.kind.memberName? = some name) :
    AreTarget (ts ++ [d, m]) (.member .origin chain name) := by
  obtain ⟨head, us, hhead, hlinked⟩ := h
  exact ⟨head, us ++ [d, m], hhead.append _, (hlinked.append [d, m]).snoc (.member hd touching hm)⟩

theorem AreChain.member (h : AreChain ts chain) (hd : d.kind = .symbol .dot)
    (touching : d.adjacent = true) (hm : m.kind.memberName? = some name) :
    AreChain (ts ++ [d, m]) (.member .origin chain name) := by
  cases h with
  | target h => exact .target (h.member hd touching hm)
  | parens hl h hr links =>
    rw [List.cons_append, List.append_assoc, List.cons_append]
    exact .parens hl h hr ((links.append [d, m]).snoc (.member hd touching hm))

theorem AreChain.expression (h : AreChain ts chain) : Expression 0 ts chain.unplaced [] := by
  cases h with
  | target h =>
    obtain ⟨head, us, hhead, hlinked⟩ := h
    exact (Operand.chain hhead hlinked.links).expression
  | parens hl h hr links => exact (Operand.parens hl (h.closed hr) hr links.links).expression

/-! ## The last token -/

/-- Some tokens stand in front of others, and the last of them is of a certain kind. -/
def EndsIn (p : TokenKind → Bool) (ts rest : List Token) : Prop :=
  ∃ front t, ts = front ++ t :: rest ∧ p t.kind = true

/-- A chain may end with the token. -/
def closesChain : TokenKind → Bool
  | .ident _ | .keyword _ | .symbol .rparen => true
  | _ => false

/-- An expression may end with the token. -/
def closesOperand (kind : TokenKind) : Bool := closesChain kind || kind.literal?.isSome

section

variable {p p' : TokenKind → Bool}

theorem EndsIn.mono (h : EndsIn p ts us) (imp : ∀ kind, p kind = true → p' kind = true) :
    EndsIn p' ts us := by
  obtain ⟨front, t, rfl, last⟩ := h
  exact ⟨front, t, rfl, imp _ last⟩

theorem EndsIn.cons (h : EndsIn p ts us) (t : Token) : EndsIn p (t :: ts) us := by
  obtain ⟨front, last, rfl, closes⟩ := h
  exact ⟨t :: front, last, rfl, closes⟩

theorem EndsIn.trans (h : EndsIn p ts us) (h' : us = vs ∨ EndsIn p us vs) : EndsIn p ts vs := by
  obtain rfl | ⟨front', last, rfl, closes⟩ := h'
  · exact h
  · obtain ⟨front, t, rfl, -⟩ := h
    exact ⟨front ++ t :: front', last, by simp, closes⟩

end

theorem closesChain_of_memberName? {kind : TokenKind} (h : kind.memberName? = some name) :
    closesChain kind = true := by
  cases kind <;> first | rfl | nomatch h

theorem closesOperand_of_closesChain (kind : TokenKind) (h : closesChain kind = true) :
    closesOperand kind = true :=
  Bool.or_eq_true_iff.mpr (.inl h)

theorem closesOperand_of_literal? {kind : TokenKind} {value : Literal}
    (h : kind.literal? = some value) : closesOperand kind = true :=
  Bool.or_eq_true_iff.mpr (.inr (h ▸ rfl))

theorem endsBefore_of_closesChain {kind : TokenKind} (h : closesChain kind = true) :
    kind.endsBefore '.' = true := by
  cases kind with
  | symbol s => cases s <;> rfl
  | _ => first | rfl | nomatch h

theorem endsIn_of_head (h : Head ts head us) : EndsIn closesChain ts us := by
  cases h with
  | @var t _ _ ht => exact ⟨[], t, rfl, ht ▸ rfl⟩
  | @withMember t u _ _ _ hu => exact ⟨[t], u, rfl, closesChain_of_memberName? hu⟩

theorem endsIn_of_link (h : Link head ts chain us) : EndsIn closesChain ts us := by
  cases h with
  | @member _ t u _ _ _ _ hu => exact ⟨[t], u, rfl, closesChain_of_memberName? hu⟩
  | @apply _ t u _ _ hu => exact ⟨[t], u, rfl, hu ▸ rfl⟩
  | @call _ t _ _ u _ _ hargs hu =>
    obtain ⟨inner, rfl⟩ := hargs.takes.suffix
    exact ⟨t :: inner, u, rfl, hu ▸ rfl⟩

theorem endsIn_of_linked (h : Linked head ts chain us) : ts = us ∨ EndsIn closesChain ts us := by
  induction h with
  | nil => exact .inl rfl
  | cons link _ ih => exact .inr ((endsIn_of_link link).trans ih)

theorem endsIn_of_parens {l r : Token} {inner : Expr} {i : Nat} (taken : Takes i ts (r :: us))
    (hr : r.kind = .symbol .rparen) (links : Linked inner us chain vs) :
    EndsIn closesChain (l :: ts) vs := by
  obtain ⟨front, rfl⟩ := taken.suffix
  have closed : EndsIn closesChain (l :: (front ++ r :: us)) us := ⟨l :: front, r, rfl, hr ▸ rfl⟩
  exact closed.trans (endsIn_of_linked links)

theorem endsIn_of_path : ∀ {ts : List Token} {names : List Name} {rest : List Token},
    Grammar.Path ts names rest → ts = rest ∨ EndsIn closesChain ts rest
  | _, _, _, .stop _ => .inl rfl
  | _, _, _, .cons (t := t) (u := u) _ hu further =>
    have first : EndsIn closesChain (t :: u :: _) _ := ⟨[t], u, rfl, closesChain_of_memberName? hu⟩
    .inr (first.trans (endsIn_of_path further))

/-- A chain ends with a word or a parenthesis, and so before a point. -/
theorem AreChain.endsBefore_getLast? (h : AreChain ts chain) :
    ∀ t ∈ ts.getLast?, t.kind.endsBefore '.' = true := by
  have ends : EndsIn closesChain ts [] := by
    cases h with
    | target h =>
      obtain ⟨head, us, hhead, hlinked⟩ := h
      exact (endsIn_of_head hhead).trans (endsIn_of_linked hlinked)
    | parens _ h hr links => exact endsIn_of_parens (h.closed hr).takes hr links
  obtain ⟨front, t, rfl, closes⟩ := ends
  rintro u hu
  rw [List.getLast?_concat] at hu
  exact Option.some.inj hu ▸ endsBefore_of_closesChain closes

mutual

/-- An expression ends with a word, a parenthesis or a literal. -/
theorem endsIn_of_expression : ∀ {level : Nat} {ts : List Token} {e : Expr} {rest : List Token},
    Expression level ts e rest → EndsIn closesOperand ts rest
  | _, _, _, _, .intro h further => (endsIn_of_operand h).trans (endsIn_of_further further)

theorem endsIn_of_operand : ∀ {level : Nat} {ts : List Token} {e : Expr} {rest : List Token},
    Operand level ts e rest → EndsIn closesOperand ts rest
  | _, _, _, _, .not _ _ h | _, _, _, _, .neg _ _ h | _, _, _, _, .plus _ _ h =>
    (endsIn_of_expression h).cons _
  | _, _, _, _, .literal ht => ⟨[], _, rfl, closesOperand_of_literal? ht⟩
  | _, _, _, _, .negative (t := t) (u := u) _ hu | _, _, _, _, .positive (t := t) (u := u) _ hu =>
    ⟨[t], u, rfl, hu ▸ rfl⟩
  | _, _, _, _, .create (t := t) (u := u) _ hu h =>
    have first : EndsIn closesChain (t :: u :: _) _ := ⟨[t], u, rfl, hu ▸ rfl⟩
    (first.trans (endsIn_of_path h)).mono closesOperand_of_closesChain
  | _, _, _, _, .parens _ h hr links =>
    (endsIn_of_parens h.takes hr links.linked.1).mono closesOperand_of_closesChain
  | _, _, _, _, .chain h links =>
    ((endsIn_of_head h).trans (endsIn_of_linked links.linked.1)).mono closesOperand_of_closesChain

theorem endsIn_of_further : ∀ {level : Nat} {left : Expr} {ts : List Token} {e : Expr}
    {rest : List Token}, Further level left ts e rest → ts = rest ∨ EndsIn closesOperand ts rest
  | _, _, _, _, _, .stop _ => .inl rfl
  | _, _, _, _, _, .cons _ _ h further =>
    .inr (((endsIn_of_expression h).cons _).trans (endsIn_of_further further))

end

/-- What is read as an expression ends like one, in front of the end of the page. -/
theorem IsPage.closes_of_ofTokens? {e : Expr} (page : IsPage ts) (read : Expr.ofTokens? ts = .ok e) :
    ∃ front t last, ts = front ++ [t, last] ∧ closesOperand t.kind = true := by
  rw [Expr.ofTokens?_eq] at read
  cases whole : Expr.parseWhole (.start ts) with
  | error => nomatch whole ▸ read
  | ok r =>
    obtain ⟨e', ⟨rest, q⟩, parsed, atEnd⟩ := exists_of_bind whole
    rw [bind_of_ok (kind_run _)] at atEnd
    split at atEnd
    · rename_i isEnd
      obtain ⟨front, t, rfl, closes⟩ :=
        endsIn_of_expression (expression_of_parse (Nat.le_refl _) parsed)
      cases rest with
      | nil =>
        have last : t.kind = .endOfPage := page.last_kind
        rw [last] at closes
        nomatch closes
      | cons last rest =>
        have behind : last :: rest <:+ front ++ t :: last :: rest := ⟨front ++ [t], by simp⟩
        obtain rfl := (page.of_suffix behind (List.cons_ne_nil _ _)).eq_nil isEnd
        exact ⟨front, t, last, rfl, closes⟩
    · nomatch atEnd

/-! ## Sources -/

/-- The source with points and words behind it. -/
def withMembers (source : String) (words : List String) : String :=
  words.foldl (fun text word => text ++ "." ++ word) source

/-- The tokens are all of the source but for the end of the page, and it ends with the last of them. -/
structure MakeUp (source : String) (ts : List Token) : Prop where
  tokens : ∃ last, tokensOf .code source = ts ++ [last]
  ends : Lexeme.EndsInToken source.toList

/-- The tokens stay the first ones of the source with text behind it that does not go on with a word. -/
def StayFirst (source : String) (ts : List Token) : Prop :=
  ∀ behind : String, (∀ c ∈ behind.toList.head?, Lexeme.isWordChar c = false) →
    ∃ us, tokensOf .code (source ++ behind) = ts ++ us

/-- The source is made of the tokens of a chain and is read as that chain. -/
structure IsReadAs (source : String) (ts : List Token) (chain : Expr) : Prop where
  makeUp : MakeUp source ts
  areChain : AreChain ts chain
  stay : StayFirst source ts
  expression : ∃ e, expressionOf? .code source = .ok e ∧ chain.Same e

/-- In all places the spellings of an assignment with the tokens for a target are read as one, and so is
the source with an equals sign and an expression behind it. -/
structure IsAssignedAs (source : String) (ts : List Token) (target : Expr) : Prop where
  everywhere : ∀ vs value, ReadsAll Expr.parse vs value.Same → ∀ us, Stmt.AssignSpelled ts vs us →
    Stmt.FoundEverywhere us (Stmt.Assigns target value)
  program : ∀ behind e vs last value, tokensOf .code (source ++ behind) = ts ++ e :: (vs ++ [last]) →
    e.kind = .symbol .eq → ReadsAll Expr.parse vs value.Same →
      ∃ stmt, programOf? .code (source ++ behind) = .ok [stmt] ∧ Stmt.Assigns target value stmt

theorem MakeUp.isReadAs (h : MakeUp source ts) (hchain : AreChain ts chain) (stay : StayFirst source ts) :
    IsReadAs source ts chain := by
  refine ⟨h, hchain, stay, ?_⟩
  obtain ⟨last, tokens⟩ := h.tokens
  have page : IsPage (ts ++ [last]) := tokens ▸ isPage_tokensFrom _ _
  rw [expressionOf?, tokens]
  exact hchain.expression.ofTokens? page.last_kind

theorem AreTarget.isAssignedAs (h : AreTarget ts target) : IsAssignedAs source ts target := by
  have everywhere (vs : List Token) (value : Expr) (hv : ReadsAll Expr.parse vs value.Same)
      (us : List Token) (spelled : Stmt.AssignSpelled ts vs us) :
      Stmt.FoundEverywhere us (Stmt.Assigns target value) := by
    obtain ⟨value', q, same, parsed⟩ := hv
    have expression := expression_of_parse (Nat.le_refl _) parsed
    exact spelled.foundEverywhere ⟨h, same ▸ expression⟩
  refine ⟨everywhere, fun behind e vs last value tokens he hv => ?_⟩
  have bare : Stmt.AssignSpelled ts vs (ts ++ e :: vs) := .bare (.refl _) he (.refl _)
  have assembled : ts ++ e :: (vs ++ [last]) = ts ++ e :: vs ++ [last] := by simp
  rw [assembled] at tokens
  have page : IsPage (ts ++ e :: vs ++ [last]) := tokens ▸ isPage_tokensFrom _ _
  rw [programOf?, tokens]
  exact (everywhere vs value hv _ bare).programOfTokens? page.last_kind

/-! ## Words -/

/-- A word ends in front of text that does not go on with it. -/
theorem endsAt_ofWord {chars text : List Char} (stops : ∀ c ∈ text.head?, Lexeme.isWordChar c = false) :
    (TokenKind.ofWord chars).EndsAt text := by
  intro c hc
  rw [TokenKind.endsBefore_ofWord, stops c hc]
  rfl

/-- A word that is not reserved is a variable. -/
theorem isReadAs_var (hword : IsWord word.toList) (free : Keyword.ofSpelling? (foldCase word) = none) :
    ∃ ts, AreTarget ts (.var .origin (.ofString word)) ∧
      IsReadAs word ts (.var .origin (.ofString word)) := by
  obtain ⟨t, q, kind, -, tokens⟩ := tokensFrom_word Place.isCode_start hword
  have ident : t.kind = .ident (.ofString word) := by
    unfold TokenKind.ofWord at kind
    rw [kind, String.ofList_toList, free]
  have target : AreTarget [t] (.var .origin (.ofString word)) := ⟨_, [], .var ident, .nil⟩
  have makeUp : MakeUp word [t] := by
    have alone := tokens [] nofun
    rw [tokensFrom_nil, List.append_nil] at alone
    exact ⟨⟨q.endToken, alone⟩, .of_word .nil hword⟩
  refine ⟨[t], target, makeUp.isReadAs (.target target) fun behind stops => ?_⟩
  rw [tokensOf, String.toList_append]
  exact ⟨_, tokens _ (endsAt_ofWord stops)⟩

/-- A word behind a point with nothing in front of it is a member of the `with` object. -/
theorem isReadAs_withMember (hword : IsWord word.toList) :
    ∃ ts, AreTarget ts (.withMember .origin (.ofString word)) ∧
      IsReadAs ("." ++ word) ts (.withMember .origin (.ofString word)) := by
  obtain ⟨d, m, q, hd, -, hm, tokens⟩ := tokensFrom_member Place.isCode_start hword
  have name : m.kind.memberName? = some (.ofString word) := by
    rw [hm, TokenKind.memberName?_ofWord, String.ofList_toList]
  have target : AreTarget [d, m] (.withMember .origin (.ofString word)) :=
    ⟨_, [], .withMember hd name, .nil⟩
  have makeUp : MakeUp ("." ++ word) [d, m] := by
    have alone := tokens [] nofun
    rw [tokensFrom_nil, List.append_nil] at alone
    refine ⟨⟨q.endToken, ?_⟩, ?_⟩
    · rw [tokensOf, String.toList_append]
      exact alone
    · rw [String.toList_append]
      exact .of_member .nil hword
  refine ⟨[d, m], target, makeUp.isReadAs (.target target) fun behind stops => ?_⟩
  rw [tokensOf, String.toList_append, String.toList_append, List.append_assoc]
  exact ⟨_, tokens _ (endsAt_ofWord stops)⟩

/-- **A word behind a point behind a chain is one more member**, whatever the word is. -/
theorem MakeUp.isReadAs_member (h : MakeUp source ts) (hchain : AreChain ts chain)
    (hword : IsWord word.toList) :
    ∃ us, IsReadAs (source ++ "." ++ word) us (.member .origin chain (.ofString word)) ∧
      (AreTarget ts chain → AreTarget us (.member .origin chain (.ofString word))) := by
  obtain ⟨last, alone⟩ := h.tokens
  obtain ⟨reads, q, hq, touches, pointed⟩ := h.ends.tokensFrom_point rfl alone hchain.endsBefore_getLast?
  obtain ⟨d, m, q', hd, adjacent, hm, tokens⟩ := tokensFrom_member hq hword
  have whole (text : List Char) (stops : (TokenKind.ofWord word.toList).EndsAt text) :
      tokensFrom (.start .code) (source.toList ++ '.' :: (word.toList ++ text)) =
        ts ++ [d, m] ++ tokensFrom q' text := by
    rw [pointed, tokens text stops, List.append_assoc]
    rfl
  have chars : (source ++ "." ++ word).toList = source.toList ++ '.' :: word.toList := by
    rw [String.toList_append, String.toList_append, List.append_assoc]
    rfl
  have makeUp : MakeUp (source ++ "." ++ word) (ts ++ [d, m]) := by
    have alone := whole [] nofun
    rw [tokensFrom_nil, List.append_nil, ← chars] at alone
    exact ⟨⟨q'.endToken, alone⟩, chars ▸ .of_member (reads _) hword⟩
  have name : m.kind.memberName? = some (.ofString word) := by
    rw [hm, TokenKind.memberName?_ofWord, String.ofList_toList]
  have touching : d.adjacent = true := adjacent.trans touches
  refine ⟨ts ++ [d, m], makeUp.isReadAs (hchain.member hd touching name) fun behind stops => ?_,
    fun target => target.member hd touching name⟩
  rw [tokensOf, String.toList_append, chars, List.append_assoc, List.cons_append]
  exact ⟨_, whole _ (endsAt_ofWord stops)⟩

/-- Word by word, what is read as a chain becomes one of its members. -/
theorem IsReadAs.members (h : IsReadAs source ts chain) {words : List String}
    (hwords : ∀ word ∈ words, IsWord word.toList) :
    ∃ us, IsReadAs (withMembers source words) us (chain.members words) ∧
      (AreTarget ts chain → AreTarget us (chain.members words)) := by
  induction words generalizing source ts chain with
  | nil => exact ⟨ts, h, id⟩
  | cons word words ih =>
    obtain ⟨hword, further⟩ := List.forall_mem_cons.mp hwords
    obtain ⟨us, read, target⟩ := h.makeUp.isReadAs_member h.areChain hword
    obtain ⟨vs, read', target'⟩ := ih read further
    exact ⟨vs, read', fun h => target' (target h)⟩

/-- The word that starts a comment leaves the point behind a chain alone, which is no expression. -/
theorem MakeUp.ne_ok_of_rem (h : MakeUp source ts) (hchain : AreChain ts chain)
    (rem : foldCase word = "rem") (e : Expr) : expressionOf? .code (source ++ "." ++ word) ≠ .ok e := by
  intro read
  rw [← String.ofList_toList (s := word)] at rem
  obtain ⟨last, alone⟩ := h.tokens
  obtain ⟨-, q, hq, -, pointed⟩ := h.ends.tokensFrom_point rfl alone hchain.endsBefore_getLast?
  obtain ⟨d, q', hd, tokens⟩ := tokensFrom_rem hq rem
  have whole : tokensOf .code (source ++ "." ++ word) = ts ++ [d, q'.endToken] := by
    rw [tokensOf, String.toList_append, String.toList_append, List.append_assoc]
    exact (pointed word.toList).trans (congrArg _ tokens)
  have page : IsPage (ts ++ [d, q'.endToken]) := whole ▸ isPage_tokensFrom _ _
  rw [expressionOf?, whole] at read
  obtain ⟨front, t, last, same, closes⟩ := page.closes_of_ofTokens? read
  obtain rfl : d = t := (List.cons.inj (List.append_inj_right' same rfl)).1
  rw [hd] at closes
  nomatch closes

/-! ## All words -/

/-- A letter, then letters, digits and underscores. -/
structure IsIdentifierShaped (word : String) : Prop where
  letter : word.toList.head?.any Char.isAlpha = true
  word : word.toList.all Lexeme.isWordChar = true

theorem IsIdentifierShaped.isWord (h : IsIdentifierShaped word) (noRemark : foldCase word ≠ "rem") :
    IsWord word.toList :=
  .of_chars h.letter h.word (by rwa [String.ofList_toList])

/-- A word and further ones, each behind a point, name members: behind a chain, behind nothing, and
behind the first one if that is not reserved. -/
structure NameMembers (word : String) (words : List String) : Prop where
  behind : ∀ source xs chain, MakeUp source xs → AreChain xs chain →
    ∃ ts, IsReadAs (withMembers source (word :: words)) ts (chain.members (word :: words)) ∧
      (AreTarget xs chain →
        IsAssignedAs (withMembers source (word :: words)) ts (chain.members (word :: words)))
  alone : ∃ ts,
    IsReadAs (withMembers ("." ++ word) words) ts ((Expr.withMember .origin (.ofString word)).members words) ∧
    IsAssignedAs (withMembers ("." ++ word) words) ts
      ((Expr.withMember .origin (.ofString word)).members words)
  head : Keyword.ofSpelling? (foldCase word) = none → ∃ ts,
    IsReadAs (withMembers word words) ts ((Expr.var .origin (.ofString word)).members words) ∧
    IsAssignedAs (withMembers word words) ts ((Expr.var .origin (.ofString word)).members words)

theorem nameMembers {words : List String} (hwords : ∀ w ∈ word :: words, IsWord w.toList) :
    NameMembers word words := by
  obtain ⟨hword, further⟩ := List.forall_mem_cons.mp hwords
  refine ⟨fun source xs chain h hchain => ?_, ?_, fun free => ?_⟩
  · obtain ⟨us, read, target⟩ := h.isReadAs_member hchain hword
    obtain ⟨ts, read', target'⟩ := read.members further
    exact ⟨ts, read', fun h => (target' (target h)).isAssignedAs⟩
  · obtain ⟨us, target, read⟩ := isReadAs_withMember hword
    obtain ⟨ts, read', target'⟩ := read.members further
    exact ⟨ts, read', (target' target).isAssignedAs⟩
  · obtain ⟨us, target, read⟩ := isReadAs_var hword free
    obtain ⟨ts, read', target'⟩ := read.members further
    exact ⟨ts, read', (target' target).isAssignedAs⟩

/-- **All words but one name members**, reserved ones too, each of what it stands behind; and a target
with words behind it is a target.  The exception is the word that starts a comment: with it behind a
chain nothing is read. -/
theorem members_of_words {words : List String} (shaped : ∀ w ∈ word :: words, IsIdentifierShaped w) :
    ((∀ w ∈ word :: words, foldCase w ≠ "rem") → NameMembers word words) ∧
      (foldCase word = "rem" → ∀ source xs chain, MakeUp source xs → AreChain xs chain →
        ∀ e, expressionOf? .code (source ++ "." ++ word) ≠ .ok e) :=
  ⟨fun noRemark => nameMembers fun w hw => (shaped w hw).isWord (noRemark w hw),
    fun rem _ _ _ h hchain => h.ne_ok_of_rem hchain rem⟩

/-- One name. -/
theorem makeUp_x : MakeUp "x" [⟨.ident (.ofString "x"), ⟨0, 1⟩, false, false⟩] := by
  refine ⟨⟨⟨.endOfPage, ⟨1, 1⟩, true, false⟩, by with_unfolding_all rfl⟩, ?_⟩
  exact ⟨[], 'x', [], .ident (.ofString "x"), rfl, .nil, rfl, nofun, nofun⟩

theorem areTarget_x :
    AreTarget [⟨.ident (.ofString "x"), ⟨0, 1⟩, false, false⟩] (.var .origin (.ofString "x")) :=
  ⟨_, [], .var rfl, .nil⟩

/-- Reserved words behind a name. -/
theorem members_of_reserved_words :
    (∀ w ∈ ["Next", "END"], IsIdentifierShaped w) ∧ (∀ w ∈ ["Next", "END"], foldCase w ≠ "rem") ∧
      ∃ ts, IsReadAs "x.Next.END" ts (.member .origin
        (.member .origin (.var .origin (.ofString "x")) (.ofString "next")) (.ofString "end")) := by
  have shaped : ∀ w ∈ ["Next", "END"], IsIdentifierShaped w := by
    refine List.forall_mem_cons.mpr ⟨?_, List.forall_mem_singleton.mpr ?_⟩ <;>
      exact ⟨by decide +kernel, by decide +kernel⟩
  have noRemark : ∀ w ∈ ["Next", "END"], foldCase w ≠ "rem" := by decide +kernel
  obtain ⟨ts, read, -⟩ :=
    ((members_of_words shaped).1 noRemark).behind "x" _ _ makeUp_x (.target areTarget_x)
  exact ⟨shaped, noRemark, ts, read⟩

/-- The word that starts a comment names no member, although it is made of letters. -/
theorem error_member_rem :
    (∃ ts, MakeUp "x" ts ∧ AreTarget ts (.var .origin (.ofString "x"))) ∧
      IsIdentifierShaped "rem" ∧
      expressionOf? .code (withMembers "x" ["rem"]) =
        .error ⟨.expected "member name" .endOfPage, ⟨5, 5⟩⟩ := by
  have failed : expressionOf? .code (withMembers "x" ["rem"]) =
      .error ⟨.expected "member name" .endOfPage, ⟨5, 5⟩⟩ := by
    with_unfolding_all rfl
  exact ⟨⟨_, makeUp_x, areTarget_x⟩, ⟨by decide +kernel, by decide +kernel⟩, failed⟩

end Token

end PageScript
