import PageScript.Proofs.Machine.Agreement
import PageScript.Proofs.Machine.Unplaced
import PageScript.Proofs.Syntax.Calls

/-!
# Proofs/Syntax/Assignments — the spellings of an assignment

An assignment may be written with the word `set` or `let` in front, or bare.  The bare form is read as
a chain first, which the equals sign behind it makes a target.  `let` is a name, and it is taken for
the word only in front of another name: in front of a point it is a procedure that is called.
`Stmt.AssignSpelled` lists the spellings, and all of them are read as the same assignment in all places
where statements stand (`Stmt.foundEverywhere_of_assigned`).  Where it was read from is nothing to what
it does.
-/

namespace PageScript

open Parse Grammar
open Token (next nextAdjacent)

namespace Stmt

/-- The ways to write an assignment with the tokens of a target and of a value. -/
inductive AssignSpelled (cs vs : List Token) : List Token → Prop
  | bare {cs' e vs'} (hc : Token.Moved cs cs') (he : e.kind = .symbol .eq) (hv : Token.Moved vs vs') :
      AssignSpelled cs vs (cs' ++ e :: vs')
  | set {w cs' e vs'} (hw : w.kind = .keyword .setWord) (hc : Token.Moved cs cs')
      (he : e.kind = .symbol .eq) (hv : Token.Moved vs vs') :
      AssignSpelled cs vs (w :: (cs' ++ e :: vs'))
  | «let» {w cs' e vs' name} (hw : w.kind.isWord "let" = true) (named : next cs = .ident name)
      (hc : Token.Moved cs cs') (he : e.kind = .symbol .eq) (hv : Token.Moved vs vs') :
      AssignSpelled cs vs (w :: (cs' ++ e :: vs'))

/-- What an assignment is, up to places. -/
def Assigns (target value : Expr) (stmt : Stmt) : Prop :=
  (Stmt.assign .origin target value).Same stmt

theorem Assigns.exists {target value : Expr} {stmt : Stmt} (h : Assigns target value stmt) :
    ∃ s target' value', stmt = .assign s target' value' ∧ target.Same target' ∧ value.Same value' := by
  cases stmt with
  | assign s target' value' =>
    obtain ⟨-, same, same'⟩ := Stmt.assign.inj h
    exact ⟨s, target', value', rfl, same, same'⟩
  | includeFile _ _ attached => cases attached <;> nomatch h
  | _ => nomatch h

/-! ## Reading them -/

section Readers

variable {target value : Expr} {w e : Token} {cs vs ts rest : List Token}

/-- The tokens of a target and of a value. -/
structure Sides (target value : Expr) (cs vs : List Token) : Prop where
  chain : ∃ head us, Head cs head us ∧ Linked head us target.unplaced []
  expression : Expression 0 vs value.unplaced []

theorem Sides.of_readsAll (hc : ReadsAll Parse.chain cs target.Same)
    (hv : ReadsAll Expr.parse vs value.Same) : Sides target value cs vs where
  chain := exists_linked_of_readsAll hc
  expression := by
    obtain ⟨value', q, same, parsed⟩ := hv
    exact same ▸ expression_of_parse (Nat.le_refl _) parsed

theorem Sides.moved (h : Sides target value cs vs) {cs' vs' : List Token} (hc : Token.Moved cs cs')
    (hv : Token.Moved vs vs') : Sides target value cs' vs' where
  chain := by
    obtain ⟨head, us, hhead, hlinked⟩ := h.chain
    obtain ⟨us', hhead', hlinked'⟩ := exists_linked_of_moved hhead hlinked hc
    exact ⟨head, us', hhead', hlinked'⟩
  expression := by
    obtain ⟨_, _ | _, expression⟩ := h.expression.moved hv
    exact expression

/-- The equals sign ends the target. -/
theorem Sides.run_target (h : Sides target value cs vs) (he : e.kind = .symbol .eq) (us : List Token)
    (p : Span) : ∃ chain opening q, target.Same chain ∧ ∀ f : Expr × Option Cursor → Parse Stmt,
      (chainHead >>= fun head => remaining >>= fun n => links Expr.parse n head none >>= f)
        ⟨cs ++ e :: us, p⟩ = f (chain, opening) ⟨e :: us, q⟩ := by
  obtain ⟨head, vs, hhead, hlinked⟩ := h.chain
  obtain ⟨chain, bound, opening, q, same, -, run⟩ := run_of_linked hhead hlinked (e :: us) p
  have other {s : Symbol} (hs : s ≠ .eq) : next (e :: us) ≠ .symbol s := fun h =>
    hs (TokenKind.symbol.inj (h.symm.trans he))
  have ends : links Expr.parse bound chain opening ⟨e :: us, q⟩ =
      .ok ((chain, opening), ⟨e :: us, q⟩) :=
    links_end (other (by decide)) fun dot => absurd dot (other (by decide))
  exact ⟨chain, opening, q, same, fun f => (run f).trans (bind_of_ok ends)⟩

/-- What is read behind the equals sign of an assignment that starts somewhere. -/
def valueBehind (start : Span) (target : Expr) : Parse Stmt := do
  let value ← Expr.parse
  pure (.assign (start.merge value.span) target value)

theorem Sides.run_value (h : Sides target value cs vs) (start : Span) {chain : Expr}
    (same : target.Same chain) (ends : (next rest).EndsCall) (p : Span) :
    ∃ stmt q, Assigns target value stmt ∧ valueBehind start chain ⟨vs ++ rest, p⟩ = .ok (stmt, ⟨rest, q⟩) := by
  obtain ⟨value', q, same', run⟩ := (h.expression.append fun _ => ends.stopsList).parse p
  refine ⟨.assign (start.merge value'.span) chain value', q, ?_, bind_of_ok run⟩
  exact congrArg₂ (Stmt.assign .origin) same same'

theorem Sides.read_bare (h : Sides target value cs vs) (he : e.kind = .symbol .eq) :
    ReadsBefore assignmentOrCall (cs ++ e :: vs) TokenKind.EndsCall (Assigns target value) := by
  intro rest p ends
  obtain ⟨chain, opening, q, same, run⟩ := h.run_target he (vs ++ rest) p
  obtain ⟨stmt, q', assigns, run'⟩ := h.run_value chain.span same ends e.span
  have equals : (Cursor.mk (e :: (vs ++ rest)) q).kind.isSymbol .eq = true :=
    TokenKind.isSymbol_iff.mpr he
  refine ⟨stmt, q', assigns, ?_⟩
  rw [List.append_assoc, List.cons_append, assignmentOrCall_eq, run, behindChain_assign equals,
    Cursor.advance_cons (he ▸ rfl)]
  exact run'

theorem Sides.read_marked (h : Sides target value cs vs) (he : e.kind = .symbol .eq)
    (hw : w.kind.isEnd = false) :
    ReadsBefore markedAssignment (w :: (cs ++ e :: vs)) TokenKind.EndsCall (Assigns target value) := by
  intro rest p ends
  obtain ⟨chain, opening, q, same, run⟩ := h.run_target he (vs ++ rest) w.span
  obtain ⟨stmt, q', assigns, run'⟩ := h.run_value w.span same ends e.span
  refine ⟨stmt, q', assigns, ?_⟩
  rw [List.cons_append, List.append_assoc, List.cons_append]
  refine (bind_of_ok (advance_cons hw)).trans ((run fun r => requireSymbol .eq >>= fun _ =>
    valueBehind w.span r.1).trans ?_)
  exact (bind_of_ok (requireSymbol_cons he)).trans run'

/-! ## Finding the reader -/

variable {inner : Enclosing → Parse Stmt} {around : Enclosing} {p : Span}

/-- A chain goes on with a symbol. -/
theorem next_of_linked {head chain : Expr} (h : Linked head ts chain []) (he : e.kind = .symbol .eq)
    (us : List Token) : ∃ s, next (ts ++ e :: us) = .symbol s := by
  cases h with
  | nil => exact ⟨.eq, he⟩
  | cons link =>
    cases link with
    | member ht => exact ⟨.dot, ht⟩
    | apply ht | call ht => exact ⟨.lparen, ht⟩

theorem Sides.statementWith_run (h : Sides target value cs vs) (he : e.kind = .symbol .eq)
    (us : List Token) :
    statementWith inner around ⟨cs ++ e :: us, p⟩ = assignmentOrCall ⟨cs ++ e :: us, p⟩ := by
  obtain ⟨head, vs, hhead, hlinked⟩ := h.chain
  cases hhead with
  | @var t _ name ht =>
    obtain ⟨s, symbol⟩ := next_of_linked hlinked he us
    obtain ⟨kind, span, spaced, adjacent⟩ := t
    obtain rfl : kind = .ident name := ht
    have behind : (Cursor.mk (⟨.ident name, span, spaced, adjacent⟩ :: (vs ++ e :: us)) p).nextKind =
        .symbol s := by
      rw [← symbol]
      cases vs ++ e :: us <;> rfl
    rw [List.cons_append]
    unfold statementWith
    refine (bind_of_ok (m := get) rfl).trans ?_
    change (if name.isSpelled "on" && _ then _ else if name.isSpelled "let" && _ then _ else _ :
      Parse Stmt) _ = _
    simp only [behind, TokenKind.isWord, Bool.and_false, Bool.false_eq_true, if_false]
  | @withMember t u _ name ht hu =>
    obtain ⟨kind, span, spaced, adjacent⟩ := t
    obtain rfl : kind = .symbol .dot := ht
    rfl

theorem statementWith_set_run (hw : w.kind = .keyword .setWord) :
    statementWith inner around ⟨w :: ts, p⟩ = markedAssignment ⟨w :: ts, p⟩ := by
  obtain ⟨kind, span, spaced, adjacent⟩ := w
  obtain rfl : kind = .keyword .setWord := hw
  rfl

/-- No name is both words. -/
theorem isSpelled_on_of_let {name : Name} (h : name.isSpelled "let" = true) :
    name.isSpelled "on" = false := by
  have folded : foldCase name.text = foldCase "let" := eq_of_beq h
  rw [Name.isSpelled, agreesUpToCase, folded]
  decide

theorem statementWith_let_run (hw : w.kind.isWord "let" = true) {name : Name}
    (named : next ts = .ident name) :
    statementWith inner around ⟨w :: ts, p⟩ = markedAssignment ⟨w :: ts, p⟩ := by
  obtain ⟨kind, span, spaced, adjacent⟩ := w
  cases kind with
  | ident word =>
    have spelled : word.isSpelled "let" = true := hw
    have behind : (Cursor.mk (⟨.ident word, span, spaced, adjacent⟩ :: ts) p).nextKind =
        .ident name := by
      rw [← named]
      cases ts <;> rfl
    unfold statementWith
    refine (bind_of_ok (m := get) rfl).trans ?_
    change (if word.isSpelled "on" && _ then _ else if word.isSpelled "let" && _ then _ else _ :
      Parse Stmt) _ = _
    simp only [isSpelled_on_of_let spelled, spelled, behind, Bool.false_and, Bool.true_and,
      Bool.false_eq_true, if_false, if_true]
  | _ => nomatch hw

theorem Sides.begins (h : Sides target value cs vs) (rest : List Token) : Begins (next (cs ++ rest)) := by
  obtain ⟨head, us, hhead, -⟩ := h.chain
  cases hhead with
  | var ht | withMember ht =>
    rw [List.cons_append, Token.next_cons, ht]
    exact .inl True.intro

theorem AssignSpelled.foundEverywhere (h : AssignSpelled cs vs ts) (sides : Sides target value cs vs) :
    FoundEverywhere ts (Assigns target value) := by
  cases h with
  | @bare cs' e vs' hc he hv =>
    have sides := sides.moved hc hv
    refine Stmt.foundEverywhere (fun inner around rest p ends => ?_) fun rest => ?_
    · rw [List.append_assoc, List.cons_append, sides.statementWith_run he, ← List.cons_append,
        ← List.append_assoc]
      exact sides.read_bare he rest p ends
    · exact List.append_assoc .. ▸ sides.begins _
  | @set w cs' e vs' hw hc he hv =>
    refine Stmt.foundEverywhere (fun inner around rest p ends => ?_) fun rest => ?_
    · exact (statementWith_set_run hw).symm ▸ (sides.moved hc hv).read_marked he (hw ▸ rfl) rest p ends
    · exact .inr hw
  | @«let» w cs' e vs' name hw named hc he hv =>
    obtain ⟨word, spelled⟩ : ∃ word, w.kind = .ident word := by
      cases hk : w.kind with
      | ident word => exact ⟨word, rfl⟩
      | _ => exact nomatch hk ▸ hw
    have behind (us : List Token) : next (cs' ++ us) = .ident name := by
      cases hc with
      | nil => nomatch named
      | cons kind => exact kind.symm.trans named
    refine Stmt.foundEverywhere (fun inner around rest p ends => ?_) fun rest => ?_
    · have run := (sides.moved hc hv).read_marked he (spelled ▸ rfl : w.kind.isEnd = false) rest p ends
      rw [List.cons_append, List.append_assoc] at run ⊢
      rw [statementWith_let_run hw (behind _)]
      exact run
    · rw [List.cons_append, Token.next_cons, spelled]
      exact .inl True.intro

end Readers

/-! ## What they do -/

variable {target value : Expr} {stmt stmt' : Stmt}

open Evaluator in
/-- Where an assignment was read from is nothing to what it does. -/
theorem Assigns.execute_eq (h : Assigns target value stmt) (h' : Assigns target value stmt') (n : Nat)
    (c : FrameId) : (ofBound n).execute c stmt = (ofBound n).execute c stmt' := by
  obtain ⟨s, target₁, value₁, rfl, hc, hv⟩ := h.exists
  obtain ⟨s', target₂, value₂, rfl, hc', hv'⟩ := h'.exists
  rw [← execute_assign_unplaced n c s, ← execute_assign_unplaced n c s', hc, hv, hc', hv']

theorem Assigns.declare_eq (h : Assigns target value stmt) (c : FrameId) : stmt.declare c = pure () := by
  obtain ⟨s, target₁, value₁, rfl, -⟩ := h.exists
  rfl

open Run in
/-- Two places for the faults of a run. -/
theorem agrees_placed {m : Run Unit} {place place' : Span} {s : State} :
    (within place m s).Agrees (within place' m s) := by
  rw [within_eq_map, within_eq_map]
  cases m s with
  | done => exact .done
  | failed => exact .failed rfl
  | exhausted => exact .exhausted

open Run in
/-- Statements in a row run alike, but for the places of faults, if one of them is replaced by one that
runs like it. -/
theorem agrees_executeBody_among {ev : Evaluator} {c : FrameId} (same : ev.execute c stmt = ev.execute c stmt')
    (before after : List Stmt) (s : State) : (ev.executeBody c (before ++ stmt :: after) s).Agrees
      (ev.executeBody c (before ++ stmt' :: after) s) := by
  induction before generalizing s with
  | nil =>
    have first : (within stmt.span (ev.execute c stmt) s).Agrees
        (within stmt'.span (ev.execute c stmt') s) :=
      same ▸ agrees_placed
    exact agrees_bind first
  | cons other before ih =>
    exact agrees_bind_right (within other.span (ev.execute c other)) (fun _ => ih) s

open Run in
theorem agrees_declareBody_among {c : FrameId} (same : stmt.declare c = stmt'.declare c)
    (before after : List Stmt) (s : State) : (declareBody c (before ++ stmt :: after) s).Agrees
      (declareBody c (before ++ stmt' :: after) s) := by
  induction before generalizing s with
  | nil =>
    have first : (within stmt.span (stmt.declare c) s).Agrees (within stmt'.span (stmt'.declare c) s) :=
      same ▸ agrees_placed
    exact agrees_bind first
  | cons other before ih =>
    exact agrees_bind_right (within other.span (other.declare c)) (fun _ => ih) s

open Evaluator in
theorem Assigns.agrees_runBody (h : Assigns target value stmt) (h' : Assigns target value stmt') (n : Nat)
    (c : FrameId) (before after : List Stmt) (s : State) :
    ((ofBound n).runBody c (before ++ stmt :: after) s).Agrees
      ((ofBound n).runBody c (before ++ stmt' :: after) s) :=
  (Run.agrees_bind (agrees_declareBody_among ((h.declare_eq c).trans (h'.declare_eq c).symm) before after s)).trans
    (Run.agrees_bind_right _ (fun _ => agrees_executeBody_among (h.execute_eq h' n c) before after) s)

/-! ## Agreement -/

open Evaluator in
/-- **The spellings of an assignment agree**: everywhere they are read as the same assignment, up to
places.  What two such assignments do is the same, and so is, but for the places of faults, what is done
by statements with either of them among them. -/
theorem foundEverywhere_of_assigned {cs vs : List Token} (hc : ReadsAll Parse.chain cs target.Same)
    (hv : ReadsAll Expr.parse vs value.Same) :
    (∀ ts, AssignSpelled cs vs ts → FoundEverywhere ts (Assigns target value)) ∧
    ∀ stmt stmt', Assigns target value stmt → Assigns target value stmt' → ∀ (n : Nat) (c : FrameId),
      (ofBound n).execute c stmt = (ofBound n).execute c stmt' ∧ ∀ before after s,
        ((ofBound n).runBody c (before ++ stmt :: after) s).Agrees
          ((ofBound n).runBody c (before ++ stmt' :: after) s) :=
  ⟨fun _ h => h.foundEverywhere (.of_readsAll hc hv), fun _ _ h h' n c =>
    ⟨h.execute_eq h' n c, fun before after s => h.agrees_runBody h' n c before after s⟩⟩

/-- The assignment `o.item = 1`, also with `set` or `let` in front. -/
theorem foundEverywhere_member :
    let ts := [apart (.ident (.ofString "o")), touching (.symbol .dot), touching (.ident (.ofString "item")),
      apart (.symbol .eq), apart (.number 1)]
    let assigns := Assigns (.member .origin (.var .origin (.ofString "o")) (.ofString "item"))
      (.literal .origin (.number 1))
    FoundEverywhere ts assigns ∧ FoundEverywhere (apart (.keyword .setWord) :: ts) assigns ∧
      FoundEverywhere (apart (.ident (.ofString "let")) :: ts) assigns := by
  intro ts assigns
  have hc : ReadsAll Parse.chain [apart (.ident (.ofString "o")), touching (.symbol .dot),
      touching (.ident (.ofString "item"))]
      (Expr.member .origin (.var .origin (.ofString "o")) (.ofString "item")).Same := ⟨_, _, rfl, rfl⟩
  have hv : ReadsAll Expr.parse [apart (.number 1)] (Expr.literal .origin (.number 1)).Same :=
    ⟨_, _, rfl, rfl⟩
  obtain ⟨found, -⟩ := foundEverywhere_of_assigned hc hv
  exact ⟨found ts (.bare (.refl _) rfl (.refl _)),
    found _ (@AssignSpelled.set _ _ (apart _) _ (apart _) _ rfl (.refl _) rfl (.refl _)),
    found _ (@AssignSpelled.«let» _ _ (apart _) _ (apart _) _ _ (by decide) rfl (.refl _) rfl (.refl _))⟩

/-- In front of a point `let` is no such word: `let .item = 1` calls a procedure of that name with a
comparison, where `set .item = 1` is an assignment. -/
theorem calls_of_let_member :
    let ts := [apart (.symbol .dot), touching (.ident (.ofString "item")), apart (.symbol .eq),
      apart (.number 1)]
    let target := Expr.withMember .origin (.ofString "item")
    let value := Expr.literal .origin (.number 1)
    ReadsAll Parse.chain (ts.take 2) target.Same ∧ ReadsAll Expr.parse (ts.drop 3) value.Same ∧
      ∀ (bound : Nat) (around : Enclosing),
        ReadsAll (Stmt.parseAt (bound + 1) around) (apart (.keyword .setWord) :: ts)
          (Assigns target value) ∧
        ReadsAll (Stmt.parseAt (bound + 1) around) (apart (.ident (.ofString "let")) :: ts) fun stmt =>
          Calls (.var .origin (.ofString "let")) [.mk (.binary .origin .eq target value) false] stmt ∧
            ¬ Assigns target value stmt := by
  intro ts target value
  exact ⟨⟨_, _, rfl, rfl⟩, ⟨_, _, rfl, rfl⟩, fun bound around =>
    ⟨⟨_, _, rfl, rfl⟩, ⟨_, _, ⟨rfl, nofun⟩, rfl⟩⟩⟩

end Stmt

end PageScript
