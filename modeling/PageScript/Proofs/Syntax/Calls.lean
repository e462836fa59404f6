import PageScript.Proofs.Syntax.Grammar.Moving
import PageScript.Proofs.Syntax.Places

/-!
# Proofs/Syntax/Calls — the spellings of a call statement

A call statement may be written with the word `call`, its arguments in parentheses, or bare.  The bare
form is read as a chain first, and what follows decides whether its last parentheses are arguments or
belong to the first one.  `Stmt.CallSpelled` and `Stmt.EmptyCallSpelled` list the spellings, made of
tokens that are a chain and arguments on their own.  All spellings are read as the same call in all
places where statements stand (`Stmt.readsEverywhere_of_spelled`).
-/

namespace PageScript

open Parse Grammar
open Token (next nextAdjacent)

/-- A chain of names, members and arguments. -/
def Parse.chain : Parse Expr := do
  let head ← chainHead
  let (chain, _) ← links Expr.parse (← remaining) head none
  pure chain

/-! ## The spellings -/

namespace Stmt

/-- The tokens are, on their own, a chain that is called: it does not end in arguments, and its first
name is none of the words that other statements start with. -/
structure IsCallee (callee : Expr) (ts : List Token) : Prop where
  read : ReadsAll chain ts callee.Same
  reference : callee.isReference = true
  isWord_let : (next ts).isWord "let" = false
  isWord_on : (next ts).isWord "on" = false

/-- The tokens are, on their own, arguments with commas in between.  If they start with a parenthesis,
the first argument is an expression in parentheses and nothing else. -/
structure AreArguments (args : List Arg) (ts : List Token) : Prop where
  read : ReadsAll (commaList (argument Expr.parse)) ts fun args' =>
    Expr.unplacedArgs args' = Expr.unplacedArgs args
  first : next ts = .symbol .lparen → ∀ arg ∈ args.head?, arg.byValue = true

/-- The ways to write a call statement with the tokens of a callee and of arguments. -/
inductive CallSpelled (cs as : List Token) : List Token → Prop
  | bare {cs' as'} (hc : Token.Moved cs cs') (ha : Token.Moved as as')
      (blank : nextAdjacent as' = false) : CallSpelled cs as (cs' ++ as')
  | call {w cs' l as' r} (hw : w.kind = .keyword .callWord) (hc : Token.Moved cs cs')
      (hl : l.kind = .symbol .lparen) (ha : Token.Moved as as') (hr : r.kind = .symbol .rparen) :
      CallSpelled cs as (w :: (cs' ++ l :: (as' ++ [r])))

/-- The ways to write a call statement with the tokens of a callee and without arguments. -/
inductive EmptyCallSpelled (cs : List Token) : List Token → Prop
  | bare {cs'} (hc : Token.Moved cs cs') : EmptyCallSpelled cs cs'
  | empty {cs' l r} (hc : Token.Moved cs cs') (hl : l.kind = .symbol .lparen)
      (hr : r.kind = .symbol .rparen) (touching : r.adjacent = true) :
      EmptyCallSpelled cs (cs' ++ [l, r])
  | call {w cs'} (hw : w.kind = .keyword .callWord) (hc : Token.Moved cs cs') :
      EmptyCallSpelled cs (w :: cs')
  | callEmpty {w cs' l r} (hw : w.kind = .keyword .callWord) (hc : Token.Moved cs cs')
      (hl : l.kind = .symbol .lparen) (hr : r.kind = .symbol .rparen) (touching : r.adjacent = true) :
      EmptyCallSpelled cs (w :: (cs' ++ [l, r]))

end Stmt

/-- Neither an equals sign nor the end of a statement starts an expression, and neither separates
arguments. -/
theorem TokenKind.goesOn_of_startsOperand {kind : TokenKind}
    (h : kind.startsOperand = true ∨ kind = .symbol .comma) :
    kind.isSymbol .eq = false ∧ (kind.endsStatement || kind.isKeyword .elseWord) = false := by
  obtain h | rfl := h
  · cases kind with
    | symbol s => cases s <;> first | exact ⟨rfl, rfl⟩ | nomatch h
    | keyword k => cases k <;> first | exact ⟨rfl, rfl⟩ | nomatch h
    | _ => first | exact ⟨rfl, rfl⟩ | nomatch h
  · exact ⟨rfl, rfl⟩

/-! ## An argument in parentheses -/

namespace Grammar

variable {ts us rest : List Token} {e : Expr} {args : List Arg}

/-- An expression that is one pair of parentheses is what they hold. -/
theorem Expression.inside (h : Expression 0 ts e rest) (parens : isParenthesized ts rest = true) :
    ∃ t us r, ts = t :: us ∧ t.kind = .symbol .lparen ∧ Expression 0 us e (r :: rest) ∧
      r.kind = .symbol .rparen := by
  rw [isParenthesized, Cursor.isParenthesized, Bool.and_eq_true_iff] at parens
  obtain ⟨paren, closed⟩ := parens
  rw [TokenKind.isSymbol_iff, Cursor.kind_mk_eq] at paren
  obtain ⟨h, further⟩ := h
  cases h with
  | not ht | neg ht | plus ht | negative ht | positive ht | create ht =>
    cases ht.symm.trans paren
  | literal ht => cases (congrArg TokenKind.literal? paren).symm.trans ht
  | chain h =>
    cases h with
    | var ht | withMember ht => cases ht.symm.trans paren
  | @parens _ t us inner r vs chain ws ht h hr links =>
    -- The parenthesis is closed behind `inner`, so neither links nor operators have been taken.
    have same : vs.length = rest.length := by
      have behind : Cursor.afterClosing? 0 (t :: us) = some vs := by
        rw [Cursor.afterClosing?, ht]
        exact (h.takes.afterClosing? 0).trans (by rw [Cursor.afterClosing?, hr])
      rw [behind] at closed
      exact eq_of_beq closed
    have := further.takes.length_le
    cases links with
    | link link more =>
      have := link.takes.length_le
      have := more.takes.length_le
      omega
    | stop =>
      cases further with
      | cons _ _ right more =>
        have := right.takes.length_le
        have := more.takes.length_le
        simp only [List.length_cons] at same
        omega
      | stop => exact ⟨t, us, r, rfl, ht, h, hr⟩

/-- What the first of some arguments is. -/
theorem Arguments.first {arg : Arg} (h : Arguments ts (arg :: args) rest) :
    ∃ us, Expression 0 ts arg.value us ∧ isParenthesized ts us = arg.byValue ∧
      (args = [] ∧ us = rest ∨ next us = .symbol .comma) := by
  cases h with
  | one h last => exact ⟨rest, h, rfl, .inl ⟨rfl, rfl⟩⟩
  | @cons _ _ t us _ _ h ht => exact ⟨t :: us, h, rfl, .inr ht⟩

end Grammar

/-! ## Chains and arguments inside statements -/

namespace Stmt

variable {callee chain : Expr} {args : List Arg} {ts us rest : List Token}

/-- What tokens that are a chain on their own are made of. -/
theorem exists_linked_of_readsAll (h : ReadsAll Parse.chain ts chain.Same) :
    ∃ head us, Head ts head us ∧ Linked head us chain.unplaced [] := by
  obtain ⟨chain', q, same, h⟩ := h
  obtain ⟨head, ⟨us, p⟩, hhead, h⟩ := exists_of_bind h
  obtain ⟨_, _, found, h⟩ := exists_of_bind h
  cases found
  obtain ⟨r, d, hlinks, made⟩ := exists_of_bind h
  cases made
  have links := links_of_links expression_of_parse head (Nat.le_succ _) (Nat.le_refl _) hlinks
  exact ⟨head.unplaced, us, head_of_chainHead hhead, same ▸ links.linked.1⟩

theorem exists_linked_of_moved {head e : Expr} (hhead : Head ts head us) (hlinked : Linked head us e [])
    {ts' : List Token} (moved : Token.Moved ts ts') : ∃ us', Head ts' head us' ∧ Linked head us' e [] := by
  obtain ⟨us', akin, hhead'⟩ := hhead.moved moved
  obtain ⟨_, _ | _, hlinked'⟩ := hlinked.akin akin
  exact ⟨us', hhead', hlinked'⟩

theorem IsCallee.derivation (h : IsCallee callee ts) :
    ∃ head us, Head ts head us ∧ Linked head us callee.unplaced [] :=
  exists_linked_of_readsAll h.read

theorem AreArguments.derivation (h : AreArguments args ts) :
    Arguments ts (Expr.unplacedArgs args) [] := by
  obtain ⟨args', q, same, h⟩ := h.read
  exact same ▸ arguments_of_commaList expression_of_parse (Nat.le_refl _) h

/-- In front of anything, the reader of links comes to where the chain ends. -/
theorem run_of_linked {head e : Expr} {us : List Token} (hhead : Head ts head us)
    (hlinked : Linked head us e []) (rest : List Token) (p : Span) :
    ∃ chain bound opening q, chain.unplaced = e ∧ rest.length ≤ bound ∧
      ∀ {α : Type} (f : Expr × Option Cursor → Parse α),
        (chainHead >>= fun head => remaining >>= fun n => links Expr.parse n head none >>= f)
          ⟨ts ++ rest, p⟩ = (links Expr.parse bound chain opening >>= f) ⟨rest, q⟩ := by
  obtain ⟨head', q, rfl, hrun⟩ := (hhead.append rest).read p
  obtain ⟨chain, bound, opening, q', hchain, fits, hlinks⟩ :=
    (hlinked.append rest).run (complete_parse (n := (us ++ rest).length)) (Nat.le_succ _)
      (Nat.le_refl _) rfl q
  refine ⟨chain, bound, opening, q', hchain, fits, fun f => (bind_of_ok hrun).trans ?_⟩
  exact bind_congr_run hlinks

theorem IsCallee.run (h : IsCallee callee ts) (rest : List Token) (p : Span) :
    ∃ chain bound opening q, callee.Same chain ∧ rest.length ≤ bound ∧
      ∀ {α : Type} (f : Expr × Option Cursor → Parse α),
        (chainHead >>= fun head => remaining >>= fun n => links Expr.parse n head none >>= f)
          ⟨ts ++ rest, p⟩ = (links Expr.parse bound chain opening >>= f) ⟨rest, q⟩ := by
  obtain ⟨head, us, hhead, hlinked⟩ := h.derivation
  exact run_of_linked hhead hlinked rest p

theorem IsCallee.moved (h : IsCallee callee ts) (moved : Token.Moved ts us) : IsCallee callee us := by
  obtain ⟨head, vs, hhead, hlinked⟩ := h.derivation
  obtain ⟨vs', hhead', hlinked'⟩ := exists_linked_of_moved hhead hlinked moved
  obtain ⟨chain, bound, opening, q, same, -, run⟩ := run_of_linked hhead' hlinked' [] .origin
  refine ⟨⟨chain, q, same, ?_⟩, h.reference, moved.next_eq ▸ h.isWord_let, moved.next_eq ▸ h.isWord_on⟩
  have paren : next [] ≠ .symbol .lparen := nofun
  have dot : next [] ≠ .symbol .dot := nofun
  rw [← us.append_nil]
  exact (run fun r => pure r.1).trans (bind_of_ok (links_end paren fun h => absurd h dot))

theorem AreArguments.moved (h : AreArguments args ts) (moved : Token.Moved ts us) :
    AreArguments args us := by
  obtain ⟨_, _ | _, arguments⟩ := h.derivation.moved moved
  obtain ⟨args', q, same, run⟩ := arguments.read complete_parse (Nat.le_refl _) (Nat.le_refl _) .origin
  exact ⟨⟨args', q, same, run⟩, moved.next_eq ▸ h.first⟩

/-- Where no link follows, the chain is the callee. -/
theorem IsCallee.run_end (h : IsCallee callee ts) (p : Span) (paren : next rest ≠ .symbol .lparen)
    (dot : next rest = .symbol .dot → nextAdjacent rest = false) :
    ∃ chain opening q, callee.Same chain ∧ ∀ f : Expr × Option Cursor → Parse Stmt,
      (chainHead >>= fun head => remaining >>= fun n => links Expr.parse n head none >>= f)
        ⟨ts ++ rest, p⟩ = f (chain, opening) ⟨rest, q⟩ := by
  obtain ⟨chain, bound, opening, q, same, -, run⟩ := h.run rest p
  exact ⟨chain, opening, q, same, fun f => (run f).trans (bind_of_ok (links_end paren dot))⟩

/-- Where arguments in parentheses follow, and no other link, the chain is the callee with them, and it
is known where the parentheses start. -/
theorem IsCallee.run_link {us : List Token} (h : IsCallee callee ts) (p : Span)
    (link : Link callee.unplaced us (.call .origin callee.unplaced args) rest)
    (paren : next rest ≠ .symbol .lparen) (dot : next rest ≠ .symbol .dot) :
    ∃ s chain args' q q', callee.Same chain ∧ Expr.unplacedArgs args' = args ∧
      ∀ f : Expr × Option Cursor → Parse Stmt,
        (chainHead >>= fun head => remaining >>= fun n => links Expr.parse n head none >>= f)
          ⟨ts ++ us, p⟩ = f (.call s chain args', some ⟨us, q⟩) ⟨rest, q'⟩ := by
  obtain ⟨before, bound, opening, q, same, fits, run⟩ := h.run us p
  obtain ⟨applied, q', happlied, step⟩ :=
    link.run (complete_parse (n := us.length)) (Nat.le_succ _) same q
  have less := link.takes.length_le
  obtain ⟨bound, rfl⟩ : ∃ b, bound = b + 1 := ⟨bound - 1, by omega⟩
  cases applied with
  | call s chain args' =>
    obtain ⟨-, same, same'⟩ := Expr.call.inj happlied
    refine ⟨s, chain, args', q, q', same, same', fun f => (run f).trans ?_⟩
    exact (bind_congr_run (step bound opening)).trans
      (bind_of_ok (links_end paren fun h => absurd h dot))
  | _ => cases happlied

/-! ## What is read behind a chain -/

/-- The rest of a call with the word in front of it, behind its chain. -/
def behindCall (start : Span) (chain : Expr) : Parse Stmt :=
  match chain with
  | .call s callee args =>
    pure (.call (start.merge s) (.call (start.merge s) callee args))
  | chain => pure (.call (start.merge chain.span) (.call (start.merge chain.span) chain []))

theorem callStatement_run {w : Token} {p : Span} (hw : w.kind = .keyword .callWord) :
    callStatement ⟨w :: ts, p⟩ = (chainHead >>= fun head => remaining >>= fun n =>
      links Expr.parse n head none >>= fun r => behindCall w.span r.1) ⟨ts, w.span⟩ := by
  refine (bind_of_ok (advance_cons (hw ▸ rfl))).trans ?_
  refine congrFun (congrArg _ (funext fun head => ?_)) _
  refine congrArg _ (funext fun n => congrArg _ (funext fun r => ?_))
  obtain ⟨chain, opening⟩ := r
  cases chain <;> rfl

/-- A reference that is called without arguments. -/
theorem callOfChain_of_isReference (h : chain.isReference = true) (endsInArguments : Bool) :
    callOfChain chain endsInArguments = .call chain.span chain [] := by
  cases chain <;> first | rfl | nomatch h

theorem behindCall_of_isReference {start : Span} (h : chain.isReference = true) :
    behindCall start chain =
      pure (.call (start.merge chain.span) (.call (start.merge chain.span) chain [])) := by
  cases chain <;> first | rfl | nomatch h

/-- A chain that is called is not taken apart for its last parentheses. -/
theorem behindChain_of_isReference {opening : Option Cursor} {c : Cursor}
    (h : chain.isReference = true) (assigns : c.kind.isSymbol .eq = false)
    (ends : (c.kind.endsStatement || c.kind.isKeyword .elseWord) = false) :
    behindChain chain opening c = argumentsOf chain c := by
  rw [behindChain_arguments assigns ends]
  cases chain <;> first | rfl | nomatch h

theorem IsCallee.isReference (h : IsCallee callee ts) (same : callee.Same chain) :
    chain.isReference = true := by
  rw [← Expr.isReference_unplaced, same, Expr.isReference_unplaced]
  exact h.reference

/-- What a call statement is, up to places. -/
def Calls (callee : Expr) (args : List Arg) (stmt : Stmt) : Prop :=
  (Stmt.call .origin (.call .origin callee args)).Same stmt

theorem argumentsOf_read (harguments : Arguments ts (Expr.unplacedArgs args) rest)
    (same : callee.Same chain) (p : Span) : ∃ stmt q, Calls callee args stmt ∧
      argumentsOf chain ⟨ts, p⟩ = .ok (stmt, ⟨rest, q⟩) := by
  obtain ⟨args', q, same', run⟩ := harguments.read complete_parse (Nat.le_refl _) (Nat.le_refl _) p
  have listed : commaList (argument Expr.parse) ⟨ts, p⟩ = .ok (args', ⟨rest, q⟩) := run
  refine ⟨.call (chain.span.merge q) (.call (chain.span.merge q) chain args'), q, ?_,
    bind_of_ok listed⟩
  change Stmt.call .origin (.call .origin chain.unplaced (Expr.unplacedArgs args')) = .call .origin _
  rw [same', same]
  rfl

/-! ## The spellings one by one -/

section Readers

variable {w l r : Token} {cs as : List Token}

theorem IsCallee.read_bare (h : IsCallee callee cs) :
    ReadsBefore assignmentOrCall cs TokenKind.EndsCall (Calls callee []) := by
  intro rest p ends
  obtain ⟨chain, opening, q, same, run⟩ :=
    h.run_end p ends.stopsList.lparen fun dot => absurd dot ends.stopsList.dot
  refine ⟨.call chain.span (callOfChain chain opening.isSome), q, ?_, (run _).trans ?_⟩
  · rw [callOfChain_of_isReference (h.isReference same)]
    exact congrArg (fun e => Stmt.call .origin (.call .origin e [])) same
  · exact behindChain_call (Cursor.kind_mk_eq rest q ▸ ends.isSymbol_eq)
      (Cursor.kind_mk_eq rest q ▸ ends.ends)

theorem IsCallee.read_empty (h : IsCallee callee cs) (hl : l.kind = .symbol .lparen)
    (hr : r.kind = .symbol .rparen) (touching : r.adjacent = true) :
    ReadsBefore assignmentOrCall (cs ++ [l, r]) TokenKind.EndsCall (Calls callee []) := by
  intro rest p ends
  obtain ⟨s, chain, args, q, q', same, none, run⟩ :=
    h.run_link p (.apply hl hr touching) ends.stopsList.lparen ends.stopsList.dot
  obtain rfl : args = [] := by cases args <;> first | rfl | cases none
  rw [List.append_assoc]
  refine ⟨.call s (.call s chain []), q', ?_, (run _).trans ?_⟩
  · exact congrArg (fun e => Stmt.call .origin (.call .origin e [])) same
  · exact behindChain_call (Cursor.kind_mk_eq rest q' ▸ ends.isSymbol_eq)
      (Cursor.kind_mk_eq rest q' ▸ ends.ends)

/-- The first argument starts with no parenthesis, so the chain ends before it. -/
theorem IsCallee.read_arguments (h : IsCallee callee cs)
    (arguments : Arguments as (Expr.unplacedArgs args) rest) (paren : next as ≠ .symbol .lparen)
    (blank : nextAdjacent as = false) (p : Span) :
    ∃ stmt q, Calls callee args stmt ∧ assignmentOrCall ⟨cs ++ as, p⟩ = .ok (stmt, ⟨rest, q⟩) := by
  obtain ⟨chain, opening, q, same, run⟩ := h.run_end p paren fun _ => blank
  obtain ⟨assigns, ends⟩ := TokenKind.goesOn_of_startsOperand (.inl arguments.starts)
  obtain ⟨stmt, q', calls, read⟩ := argumentsOf_read arguments same q
  refine ⟨stmt, q', calls, (run _).trans (Eq.trans ?_ read)⟩
  exact behindChain_of_isReference (h.isReference same) (Cursor.kind_mk_eq as q ▸ assigns)
    (Cursor.kind_mk_eq as q ▸ ends)

theorem exists_of_unplacedArgs_singleton {arg : Arg} (h : Expr.unplacedArgs args = [arg]) :
    ∃ arg', args = [arg'] ∧ arg'.unplaced = arg := by
  cases args with
  | nil => cases h
  | cons arg' rest =>
    cases rest with
    | nil => exact ⟨arg', rfl, (List.cons.inj h).1⟩
    | cons => cases h

/-- The first argument is in parentheses, so they are read as a link first.  If nothing follows they
are kept, otherwise reading goes back to before them. -/
theorem IsCallee.read_parenthesized {arg : Arg} (h : IsCallee callee cs)
    (arguments : Arguments as (Expr.unplacedArgs (arg :: args)) rest) (byValue : arg.byValue = true)
    (ends : (next rest).EndsCall) (p : Span) :
    ∃ stmt q, Calls callee (arg :: args) stmt ∧
      assignmentOrCall ⟨cs ++ as, p⟩ = .ok (stmt, ⟨rest, q⟩) := by
  obtain ⟨value, _⟩ := arg
  obtain rfl : _ = true := byValue
  obtain ⟨us, expression, parens, behind⟩ := arguments.first
  obtain ⟨t, vs, r, rfl, ht, inner, hr⟩ := expression.inside parens
  have link : Link callee.unplaced (t :: vs) (.call .origin callee.unplaced
      [.mk value.unplaced (isParenthesized vs (r :: us))]) us :=
    .call ht (.one inner (by rw [Token.next_cons, hr]; nofun)) hr
  obtain ⟨none, rfl⟩ | comma := behind
  · obtain ⟨s, chain, args', q, q', same, single, run⟩ :=
      h.run_link p link ends.stopsList.lparen ends.stopsList.dot
    obtain rfl : args = [] := by cases args <;> first | rfl | cases none
    obtain ⟨⟨value', marked⟩, rfl, same'⟩ := exists_of_unplacedArgs_singleton single
    refine ⟨.call s (.call s chain [.mk value' true]), q', ?_, (run _).trans ?_⟩
    · change Stmt.call .origin (.call .origin chain.unplaced [.mk value'.unplaced true]) = _
      rw [same, (Arg.mk.inj same').1]
      rfl
    · exact behindChain_call (Cursor.kind_mk_eq us q' ▸ ends.isSymbol_eq)
        (Cursor.kind_mk_eq us q' ▸ ends.ends)
  · obtain ⟨s, chain, args', q, q', same, -, run⟩ :=
      h.run_link p link (comma ▸ nofun) (comma ▸ nofun)
    obtain ⟨stmt, q'', calls, read⟩ := argumentsOf_read arguments same q
    obtain ⟨assigns, goes⟩ := TokenKind.goesOn_of_startsOperand (.inr comma)
    refine ⟨stmt, q'', calls, (run _).trans (Eq.trans ?_ read)⟩
    exact behindChain_arguments (Cursor.kind_mk_eq us q' ▸ assigns) (Cursor.kind_mk_eq us q' ▸ goes)

theorem IsCallee.read_bareArguments (h : IsCallee callee cs) (ha : AreArguments args as)
    (blank : nextAdjacent as = false) (ends : (next rest).EndsCall) (p : Span) :
    ∃ stmt q, Calls callee args stmt ∧
      assignmentOrCall ⟨cs ++ (as ++ rest), p⟩ = .ok (stmt, ⟨rest, q⟩) := by
  have alone := ha.derivation
  have arguments := alone.append fun _ => ends.stopsList
  obtain ⟨t, us, rfl⟩ := alone.takes.exists_cons
  by_cases paren : t.kind = .symbol .lparen
  · cases args with
    | nil => cases alone
    | cons arg args => exact h.read_parenthesized arguments (ha.first paren arg rfl) ends p
  · exact h.read_arguments arguments paren blank p

theorem IsCallee.read_call (h : IsCallee callee cs) (hw : w.kind = .keyword .callWord) :
    ReadsBefore callStatement (w :: cs) TokenKind.EndsCall (Calls callee []) := by
  intro rest p ends
  obtain ⟨chain, opening, q, same, run⟩ :=
    h.run_end w.span ends.stopsList.lparen fun dot => absurd dot ends.stopsList.dot
  refine ⟨.call (w.span.merge chain.span) (.call (w.span.merge chain.span) chain []), q, ?_,
    (callStatement_run hw).trans ((run _).trans ?_)⟩
  · exact congrArg (fun e => Stmt.call .origin (.call .origin e [])) same
  · exact congrFun (behindCall_of_isReference (h.isReference same)) _

/-- Behind the word the parentheses of the last link are arguments, whatever they hold. -/
theorem IsCallee.read_called {us : List Token} (h : IsCallee callee cs)
    (hw : w.kind = .keyword .callWord)
    (link : Link callee.unplaced us (.call .origin callee.unplaced (Expr.unplacedArgs args)) rest)
    (ends : (next rest).EndsCall) (p : Span) :
    ∃ stmt q, Calls callee args stmt ∧ callStatement ⟨w :: (cs ++ us), p⟩ = .ok (stmt, ⟨rest, q⟩) := by
  obtain ⟨s, chain, args', q, q', same, same', run⟩ :=
    h.run_link w.span link ends.stopsList.lparen ends.stopsList.dot
  refine ⟨.call (w.span.merge s) (.call (w.span.merge s) chain args'), q', ?_,
    (callStatement_run hw).trans (run _)⟩
  change Stmt.call .origin (.call .origin chain.unplaced (Expr.unplacedArgs args')) = .call .origin _
  rw [same, same']
  rfl

/-! ## All of them -/

variable {inner : Enclosing → Parse Stmt} {around : Enclosing} {p : Span}

theorem IsCallee.statementWith_run (h : IsCallee callee cs) :
    statementWith inner around ⟨cs ++ rest, p⟩ = assignmentOrCall ⟨cs ++ rest, p⟩ := by
  obtain ⟨head, us, hhead, -⟩ := h.derivation
  obtain ⟨-, -, isWord_let, isWord_on⟩ := h
  cases hhead with
  | @var t _ name ht =>
    obtain ⟨kind, span, spaced, adjacent⟩ := t
    obtain rfl : kind = .ident name := ht
    have isSpelled_let : name.isSpelled "let" = false := isWord_let
    have isSpelled_on : name.isSpelled "on" = false := isWord_on
    unfold statementWith
    refine (bind_of_ok (m := get) rfl).trans ?_
    change (if _ then _ else _ : Parse Stmt) _ = _
    rw [isSpelled_on, Bool.false_and, if_neg Bool.false_ne_true, isSpelled_let, Bool.false_and,
      if_neg Bool.false_ne_true]
  | @withMember t u _ name ht hu =>
    obtain ⟨kind, span, spaced, adjacent⟩ := t
    obtain rfl : kind = .symbol .dot := ht
    rfl

theorem statementWith_call_run (hw : w.kind = .keyword .callWord) :
    statementWith inner around ⟨w :: ts, p⟩ = callStatement ⟨w :: ts, p⟩ := by
  obtain ⟨kind, span, spaced, adjacent⟩ := w
  obtain rfl : kind = .keyword .callWord := hw
  rfl

theorem IsCallee.starts (h : IsCallee callee cs) (rest : List Token) :
    StartsWith (next (cs ++ rest)) := by
  obtain ⟨head, us, hhead, -⟩ := h.derivation
  cases hhead with
  | var ht | withMember ht =>
    rw [List.cons_append, Token.next_cons, ht]
    exact True.intro

theorem startsWith_call (hw : w.kind = .keyword .callWord) : StartsWith (next (w :: ts ++ rest)) := by
  rw [List.cons_append, Token.next_cons, hw]
  exact List.mem_of_elem_eq_true rfl

end Readers

/-! ## Agreement -/

variable {callee : Expr} {args : List Arg} {cs as ts : List Token}

theorem CallSpelled.readsEverywhere (h : CallSpelled cs as ts) (hc : IsCallee callee cs)
    (ha : AreArguments args as) : ReadsEverywhere ts (Calls callee args) := by
  cases h with
  | bare moved moved' blank =>
    have hc := hc.moved moved
    refine Stmt.readsEverywhere (fun inner around rest p ends => ?_) fun rest => ?_
    · rw [List.append_assoc, hc.statementWith_run]
      exact hc.read_bareArguments (ha.moved moved') blank ends p
    · exact List.append_assoc .. ▸ hc.starts _
  | @call w _ l as' r hw moved hl moved' hr =>
    have hc := hc.moved moved
    refine Stmt.readsEverywhere (fun inner around rest p ends => ?_) fun rest => ?_
    · have fenced : Fenced [] (r :: rest) := fun _ => by
        rw [Token.next_cons, hr]
        exact .rparen
      have arguments := (ha.moved moved').derivation.append fenced
      rw [List.cons_append, statementWith_call_run hw, List.append_assoc, List.cons_append,
        List.append_assoc]
      exact hc.read_called hw (.call hl arguments hr) ends p
    · exact startsWith_call hw

theorem EmptyCallSpelled.readsEverywhere (h : EmptyCallSpelled cs ts) (hc : IsCallee callee cs) :
    ReadsEverywhere ts (Calls callee []) := by
  cases h with
  | bare moved =>
    have hc := hc.moved moved
    refine Stmt.readsEverywhere (fun inner around rest p ends => ?_) hc.starts
    rw [hc.statementWith_run]
    exact hc.read_bare rest p ends
  | empty moved hl hr touching =>
    have hc := hc.moved moved
    refine Stmt.readsEverywhere (fun inner around rest p ends => ?_) fun rest => ?_
    · rw [List.append_assoc, hc.statementWith_run, ← List.append_assoc]
      exact hc.read_empty hl hr touching rest p ends
    · exact List.append_assoc .. ▸ hc.starts _
  | call hw moved =>
    refine Stmt.readsEverywhere (fun inner around rest p ends => ?_) fun rest => startsWith_call hw
    rw [List.cons_append, statementWith_call_run hw]
    exact (hc.moved moved).read_call hw rest p ends
  | callEmpty hw moved hl hr touching =>
    refine Stmt.readsEverywhere (fun inner around rest p ends => ?_) fun rest => startsWith_call hw
    rw [List.cons_append, statementWith_call_run hw, List.append_assoc]
    exact (hc.moved moved).read_called hw (.apply hl hr touching) ends p

/-- **The spellings of a call statement agree**: everywhere they are read as the same call, with the
same marks on its arguments. -/
theorem readsEverywhere_of_spelled (hc : IsCallee callee cs) :
    (∀ {args as ts}, AreArguments args as → CallSpelled cs as ts →
      ReadsEverywhere ts (Calls callee args)) ∧
    ∀ {ts}, EmptyCallSpelled cs ts → ReadsEverywhere ts (Calls callee []) :=
  ⟨fun ha h => h.readsEverywhere hc ha, fun h => h.readsEverywhere hc⟩

/-- A token behind a blank. -/
def apart (kind : TokenKind) : Token := ⟨kind, .origin, false, false⟩

/-- A token that touches the one before it. -/
def touching (kind : TokenKind) : Token := ⟨kind, .origin, false, true⟩

/-- The call `log (x), "y"`, also as `call log((x), "y")`, and the call `log`. -/
theorem readsEverywhere_log :
    ReadsEverywhere [apart (.ident (.ofString "log")), apart (.symbol .lparen),
        touching (.ident (.ofString "x")), touching (.symbol .rparen), touching (.symbol .comma),
        apart (.string "y")]
      (Calls (.var .origin (.ofString "log"))
        [.mk (.var .origin (.ofString "x")) true, .mk (.literal .origin (.string "y")) false]) ∧
    ReadsEverywhere [apart (.keyword .callWord), apart (.ident (.ofString "log")),
        touching (.symbol .lparen), touching (.symbol .lparen), touching (.ident (.ofString "x")),
        touching (.symbol .rparen), touching (.symbol .comma), apart (.string "y"),
        touching (.symbol .rparen)]
      (Calls (.var .origin (.ofString "log"))
        [.mk (.var .origin (.ofString "x")) true, .mk (.literal .origin (.string "y")) false]) ∧
    ReadsEverywhere [apart (.ident (.ofString "log"))] (Calls (.var .origin (.ofString "log")) []) := by
  have hc : IsCallee (.var .origin (.ofString "log")) [apart (.ident (.ofString "log"))] :=
    ⟨⟨_, _, rfl, rfl⟩, rfl, by decide, by decide⟩
  have ha : AreArguments
      [.mk (.var .origin (.ofString "x")) true, .mk (.literal .origin (.string "y")) false]
      [apart (.symbol .lparen), touching (.ident (.ofString "x")), touching (.symbol .rparen),
        touching (.symbol .comma), apart (.string "y")] :=
    ⟨⟨_, _, rfl, rfl⟩, fun _ _ harg => by cases harg; rfl⟩
  obtain ⟨spelled, empty⟩ := readsEverywhere_of_spelled hc
  -- Behind the parenthesis of `call` the first token of the arguments touches it.
  have moved : Token.Moved
      [apart (.symbol .lparen), touching (.ident (.ofString "x")), touching (.symbol .rparen),
        touching (.symbol .comma), apart (.string "y")]
      [touching (.symbol .lparen), touching (.ident (.ofString "x")), touching (.symbol .rparen),
        touching (.symbol .comma), apart (.string "y")] :=
    .cons rfl (.refl _)
  refine ⟨spelled ha (.bare (.refl _) (.refl _) rfl), ?_, empty (.bare (.refl _))⟩
  exact spelled ha (@CallSpelled.call _ _ (apart _) _ (touching _) _ (touching _) rfl (.refl _) rfl
    moved rfl)

end Stmt

end PageScript
