import PageScript.Proofs.Syntax.Program.Printing

/-!
# Proofs/Syntax/Program/Source — the source of a program is a way to write it

`written_pieces` follows the printer through the statements that can be written: what it prints is a
way to write them.  `spaced_pieces` says in the same order that the pieces can be laid out.
-/

namespace PageScript

open Parse (Separated)

variable {ps run : List Piece} {around : Enclosing} {stmt : Stmt} {body : List Stmt}

/-! ## Words and lists -/

/-- The words of the printer that are not reserved. -/
def plainWords : List String :=
  ["step", "in", "get", "let", "explicit", "on", "off", "error", "resume", "goto", "preserve",
    "default"]

theorem isWord_word {spelling : String} (h : spelling ∈ plainWords) :
    (Piece.word spelling).kind.isWord spelling = true := by
  have all : plainWords.all fun spelling => (Piece.word spelling).kind.isWord spelling := by
    decide +kernel
  exact List.all_eq_true.mp all spelling h

theorem Spaced.word {spelling : String} (h : spelling ∈ plainWords) (hps : Spaced ps) :
    Spaced (.word spelling :: ps) := by
  have member : (Name.ofString spelling).IsMember := by
    have letters : plainWords.all fun spelling =>
        (Name.ofString spelling).text.toList.head?.any Char.isAlpha &&
        (Name.ofString spelling).text.toList.all Lexeme.isWordChar &&
        foldCase (String.ofList (Name.ofString spelling).text.toList) != "rem" := by
      decide +kernel
    have found := List.all_eq_true.mp letters spelling h
    simp only [Bool.and_eq_true, bne_iff_ne] at found
    exact .of_chars found.1.1 found.1.2 found.2
  exact .name member hps

section

variable {α : Type} {writes : α → List Piece → Prop} {pieces : α → List Piece} {items : List α}

theorem separated_commaPieces : ∀ {items : List α}, items ≠ [] → (∀ a ∈ items, writes a (pieces a)) →
    Separated writes items (commaPieces (items.map pieces))
  | [], hne, _ => absurd rfl hne
  | [a], _, h => .one (h a List.mem_cons_self)
  | a :: b :: items, _, h =>
    .cons (h a List.mem_cons_self) rfl (separated_commaPieces (List.cons_ne_nil b items) fun a ha =>
      h a (List.mem_cons_of_mem _ ha))

theorem spaced_commaPieces : ∀ {items : List α}, (∀ a ∈ items, Spaced (pieces a)) →
    Spaced (commaPieces (items.map pieces))
  | [], _ => .nil
  | [a], h => h a List.mem_cons_self
  | a :: _ :: _, h =>
    (h a List.mem_cons_self).append (.symbol .comma (spaced_commaPieces fun a ha =>
      h a (List.mem_cons_of_mem _ ha)))

end

theorem Spaced.parens (h : Spaced ps) : Spaced (spacedParens ps) :=
  .symbol .lparen (h.append (.symbol .rparen .nil))

theorem Spaced.last {e : Expr} (h : e.IsWritable) : Spaced (e.pieces blank) :=
  List.append_nil (e.pieces blank) ▸ .expr h .nil

theorem spaced_closingPieces (word : Keyword) : Spaced (closingPieces word) :=
  .keyword .endWord (.keyword word .nil)

theorem closes_closingPieces (word : Keyword) : Closes word (closingPieces word) := ⟨rfl, rfl⟩

/-! ## Parts of declarations -/

theorem isNumeral_digits (n : Nat) : IsNumeral (Number.digits n) :=
  .whole Nat.toDigits_ne_nil fun _ hc => Number.isDigit_of_mem_digits hc

theorem boundsWritten_boundsPieces {bounds : Option (List Nat)}
    (h : ∀ ns, bounds = some ns → ∀ n ∈ ns, Number.IsBound n) :
    BoundsWritten bounds (boundsPieces bounds) := by
  cases bounds with
  | none => exact .scalar
  | some ns =>
    cases ns with
    | nil => exact .unbound rfl rfl
    | cons n ns =>
      refine .bound rfl (separated_commaPieces (List.cons_ne_nil n ns) fun m hm => ?_) rfl
      obtain ⟨d, hd, hbound⟩ := h _ rfl m hm
      exact .intro (Piece.kind_numeral blank hd) hbound

theorem spaced_boundsPieces {bounds : Option (List Nat)}
    (h : ∀ ns, bounds = some ns → ∀ n ∈ ns, Number.IsBound n) : Spaced (boundsPieces bounds) := by
  cases bounds with
  | none => exact .nil
  | some ns =>
    refine .parens (spaced_commaPieces fun n hn => ?_)
    obtain ⟨d, hd, -⟩ := h ns rfl n hn
    exact .of_piece (Piece.isSpelled_numeral isBlank_blank (isNumeral_digits n) hd) rfl

theorem paramsWritten_pieces {params : List Param} (h : ∀ param ∈ params, param.name.IsVariable) :
    ParamsWritten params (spacedParens (commaPieces (params.map Param.pieces))) := by
  cases params with
  | nil => exact .empty rfl rfl
  | cons param params =>
    refine .some rfl (separated_commaPieces (List.cons_ne_nil param params) fun param hparam => ?_) rfl
    obtain ⟨name, byRef⟩ := param
    cases byRef with
    | false => exact .byVal rfl ((h _ hparam).kind_name blank)
    | true => exact .byRef rfl ((h _ hparam).kind_name blank)

theorem spaced_params {params : List Param} (h : ∀ param ∈ params, param.name.IsVariable) :
    Spaced (spacedParens (commaPieces (params.map Param.pieces))) :=
  .parens (spaced_commaPieces fun param hparam => .keyword _ (.name (h param hparam).1 .nil))

namespace Stmt

theorem IsVariable.written {access : Access} (h : IsVariable access stmt) :
    VariableWritten access stmt stmt.itemPieces := by
  obtain ⟨hname, hbounds⟩ := h
  exact .intro (hname.kind_name blank) (boundsWritten_boundsPieces hbounds)

theorem IsVariable.spaced {access : Access} (h : IsVariable access stmt) :
    Spaced stmt.itemPieces := by
  obtain ⟨hname, hbounds⟩ := h
  exact .name hname.1 (spaced_boundsPieces hbounds)

theorem IsConstant.written (h : IsConstant stmt) : ConstantWritten stmt stmt.itemPieces := by
  cases h with
  | @intro _ _ value hname hvalue =>
    have bare : Expr.Bare (.literal .origin value) (value.pieces blank) :=
      Expr.bare_literal hvalue
    exact .intro (hname.kind_name blank) rfl bare

theorem IsConstant.spaced (h : IsConstant stmt) : Spaced stmt.itemPieces := by
  obtain ⟨hname, hvalue⟩ := h
  exact .name hname.1 (.symbol .eq (.of_neat (Expr.neat_literal isBlank_blank hvalue)))

theorem IsResized.written {preserve : Bool} (h : IsResized preserve stmt) :
    ResizedWritten preserve stmt stmt.itemPieces := by
  obtain ⟨hname, some_bound, hbounds⟩ := h
  refine .intro (hname.kind_name blank) rfl (separated_commaPieces some_bound fun e he => ?_) rfl
  exact .bare (Nat.zero_le _) (Expr.bare_pieces e blank (hbounds e he))

theorem IsResized.spaced {preserve : Bool} (h : IsResized preserve stmt) :
    Spaced stmt.itemPieces := by
  obtain ⟨hname, -, hbounds⟩ := h
  exact .name hname.1 (.parens (spaced_commaPieces fun e he => .last (hbounds e he)))

/-! ## Groups -/

theorem startsOther_of_firstName {spelling : String} {name : Name} {ps : List Piece}
    {rest : List (List Piece)} (hname : name.IsVariable) (h : name.isSpelled spelling = false) :
    StartsOtherThan spelling (commaPieces ((.name blank name :: ps) :: rest)) := by
  have other : (Piece.name blank name).kind.isWord spelling = false := by
    rw [hname.kind_name blank]
    exact h
  cases rest with
  | nil | cons =>
    rintro _ ⟨⟩
    exact other

theorem IsGroup.written (h : IsGroup body) (s : Span) :
    Written around (.block s body) (Stmt.pieces run (.block s body)) := by
  rw [Stmt.pieces]
  cases h with
  | @declared access _ some_variable h other =>
    have items := separated_commaPieces some_variable fun stmt hstmt => (h stmt hstmt).written
    obtain ⟨stmt, rest, rfl⟩ := List.exists_cons_of_ne_nil some_variable
    obtain ⟨hname, hbounds⟩ := h stmt List.mem_cons_self
    cases access with
    | isPublic => exact .dim rfl items
    | isPrivate =>
      refine .accessed rfl items ?_
      exact startsOther_of_firstName hname (other rfl _ rfl)
  | constants several h =>
    have some_constant : body ≠ [] := by
      rintro rfl
      exact absurd several (Nat.not_succ_le_zero 1)
    have items := separated_commaPieces some_constant fun stmt hstmt => (h stmt hstmt).written
    obtain ⟨stmt, rest, rfl⟩ := List.exists_cons_of_ne_nil some_constant
    obtain ⟨hname, hvalue⟩ := h stmt List.mem_cons_self
    exact .constants rfl items several
  | @arrays preserve _ some_array h other =>
    have items := separated_commaPieces some_array fun stmt hstmt => (h stmt hstmt).written
    obtain ⟨stmt, rest, rfl⟩ := List.exists_cons_of_ne_nil some_array
    obtain ⟨hname, -, -⟩ := h stmt List.mem_cons_self
    cases preserve with
    | false =>
      refine .redim rfl items ?_
      exact startsOther_of_firstName hname (other rfl _ rfl)
    | true => exact .redimPreserve rfl (isWord_word (by decide)) items

theorem spaced_groupWords (body : List Stmt) (h : Spaced ps) : Spaced (groupWords body ++ ps) := by
  unfold groupWords
  split
  · exact .keyword .dimWord h
  · exact .keyword .privateWord h
  · exact .keyword .reDimWord h
  · exact .keyword .reDimWord (.word (by decide) h)
  · exact .keyword .constWord h

theorem IsGroup.spaced (h : IsGroup body) (s : Span) :
    Spaced (Stmt.pieces run (.block s body)) := by
  rw [Stmt.pieces]
  refine spaced_groupWords body (spaced_commaPieces fun stmt hstmt => ?_)
  cases h with
  | declared _ h => exact (h stmt hstmt).spaced
  | constants _ h => exact (h stmt hstmt).spaced
  | arrays _ h => exact (h stmt hstmt).spaced

end Stmt

/-! ## Chains -/

namespace Expr

theorem IsChain.atLevel_eq {e : Expr} (h : e.IsChain) (pieces : List Char → List Piece)
    (gap : List Char) : e.atLevel chainStrength pieces gap = pieces gap := by
  cases e with
  | var | member | withMember | call => exact if_pos (Nat.le_refl chainStrength)
  | _ => exact h.elim

theorem chainWritten_pieces : ∀ {e : Expr} {gap : List Char}, e.IsChain → e.IsWritable →
    ChainWritten e (e.pieces gap)
  | .var .., gap, _, h => .var (h.kind_name gap)
  | .withMember .., _, _, _ => .withMember rfl (Piece.memberName?_name [] _)
  | .member _ object name, gap, hchain, h => by
    have hchain : object.IsChain := hchain
    have head : ChainWritten object (object.pieces gap) := chainWritten_pieces hchain h.1
    rw [pieces, IsChain.atLevel_eq hchain]
    exact .member head rfl rfl (Piece.memberName?_name [] name)
  | .call _ callee [], gap, hchain, h => by
    have hchain : callee.IsChain := hchain
    have head : ChainWritten callee (callee.pieces gap) := chainWritten_pieces hchain h.1
    rw [pieces, IsChain.atLevel_eq hchain]
    exact .apply head rfl rfl rfl
  | .call _ callee (arg :: args), gap, hchain, h => by
    have hchain : callee.IsChain := hchain
    have head : ChainWritten callee (callee.pieces gap) := chainWritten_pieces hchain h.1
    have further := argsWritten_argPieces (arg :: args) [] (List.cons_ne_nil arg args) h.2
    rw [pieces, IsChain.atLevel_eq hchain]
    exact .call head rfl further rfl

end Expr

/-! ## Statements -/

theorem modified_pieces (access : Access) : Modified access false access.pieces := by
  cases access with
  | isPublic => exact .bare
  | isPrivate => exact .access rfl

theorem modified_modifierPieces (access : Access) (isDefault : Bool) :
    Modified access isDefault (modifierPieces access isDefault) := by
  cases isDefault with
  | false => exact modified_pieces access
  | true => exact .marked rfl (isWord_word (by decide))

theorem PropertyForm.written (form : PropertyForm) : FormWritten form form.piece.kind := by
  cases form with
  | get => exact .get (isWord_word (by decide))
  | assign => exact .assign (isWord_word (by decide))
  | set => exact .set

theorem kind_conditionWord (untilTrue : Bool) :
    (Piece.keyword blank (conditionWord untilTrue)).kind =
      .keyword (if untilTrue then .untilWord else .whileWord) :=
  rfl

/-- The pieces start with one of the words that a class knows. -/
def StartsMember (ps : List Piece) : Prop :=
  ∃ p qs word, ps = p :: qs ∧ p.kind = .keyword word ∧ word ∈ Stmt.memberWords

theorem StartsMember.keyword {k : Keyword} (hk : k ∈ Stmt.memberWords) (ps : List Piece) :
    StartsMember (.keyword blank k :: ps) :=
  ⟨_, ps, k, rfl, rfl, hk⟩

theorem Access.keyword_mem_memberWords (access : Access) : access.keyword ∈ Stmt.memberWords := by
  cases access <;> decide

theorem startsMember_access {k : Keyword} (hk : k ∈ Stmt.memberWords) (access : Access) :
    StartsMember (access.pieces ++ .keyword blank k :: ps) := by
  cases access with
  | isPublic => exact .keyword hk ps
  | isPrivate => exact .keyword (by decide) _

theorem startsMember_modifiers {k : Keyword} (hk : k ∈ Stmt.memberWords) (access : Access)
    (isDefault : Bool) : StartsMember (modifierPieces access isDefault ++ .keyword blank k :: ps) := by
  cases isDefault with
  | false => exact startsMember_access hk access
  | true => exact .keyword access.keyword_mem_memberWords _

/-- A member starts with one of the words that a class knows. -/
theorem Stmt.IsMember.starts : ∀ {stmt : Stmt}, stmt.IsMember → stmt.IsWritable around →
    StartsMember (stmt.pieces run)
  | .block _ body, hmember, h => by
    have group : IsGroup body := h
    cases group with
    | @declared access _ some_variable h =>
      obtain ⟨stmt, rest, rfl⟩ := List.exists_cons_of_ne_nil some_variable
      obtain ⟨-, -⟩ := h stmt List.mem_cons_self
      cases access <;> exact .keyword (by decide) _
    | constants several h =>
      obtain _ | ⟨stmt, rest⟩ := body
      · exact absurd several (Nat.not_succ_le_zero 1)
      · obtain ⟨-, -⟩ := h stmt List.mem_cons_self
        exact .keyword (by decide) _
    | arrays some_array h =>
      obtain ⟨stmt, rest, rfl⟩ := List.exists_cons_of_ne_nil some_array
      obtain ⟨-, -, -⟩ := h stmt List.mem_cons_self
      exact hmember.elim
  | .const .., _, _ => .keyword (by decide) _
  | .procedure _ decl, _, _ => startsMember_access (by cases decl.kind <;> decide) decl.access
  | .property _ _ decl isDefault, _, _ => startsMember_modifiers (by decide) decl.access isDefault

theorem Expr.writtenAt_pieces {e : Expr} (h : e.IsWritable) :
    Expr.WrittenAt 0 e (e.pieces blank) :=
  .bare (Nat.zero_le _) (Expr.bare_pieces e blank h)

section

variable (hrun : IsRun run)

include hrun

mutual

/-- **What the printer makes of a statement is a way to write it.** -/
theorem Stmt.written_pieces : ∀ {stmt : Stmt} {around : Enclosing}, stmt.IsWritable around →
    Stmt.Written around stmt (stmt.pieces run)
  | .block s _, _, h => Stmt.IsGroup.written h s
  | .assign _ _ _, _, h =>
    .assign (Expr.chainWritten_pieces h.1 h.2.1) rfl (Expr.writtenAt_pieces h.2.2)
  | .call _ (.call _ _ _), _, h => .call rfl (Expr.chainWritten_pieces h.1 h.2)
  | .const _ _ _, _, h => .const rfl (Stmt.IsConstant.written h)
  | .procedure _ decl, _, h =>
    .procedure h.1 (modified_pieces decl.access) rfl (Stmt.procedureWritten_pieces h.2)
  | .property _ form decl isDefault, _, h =>
    .property h.1 (modified_modifierPieces decl.access isDefault) rfl form.written h.2.1
      (Stmt.procedureWritten_pieces h.2.2)
  | .classDecl _ _ _, _, h =>
    .classDecl h.1 rfl (h.2.1.kind_name blank) hrun (Stmt.members_linePieces h.2.2.1 h.2.2.2)
      (closes_closingPieces .classWord)
  | .branch _ _ _ [], _, h =>
    .branch rfl (Expr.writtenAt_pieces h.1) rfl (.intro hrun (Stmt.lines_linePieces h.2.1)) .nothing
      (closes_closingPieces .ifWord)
  | .branch _ _ _ (_ :: _), _, h =>
    .branch rfl (Expr.writtenAt_pieces h.1) rfl (.intro hrun (Stmt.lines_linePieces h.2.1))
      (.otherwise rfl (.intro hrun (Stmt.lines_linePieces h.2.2))) (closes_closingPieces .ifWord)
  | .loop _ _ _ untilTrue false, _, h =>
    .doBefore rfl (kind_conditionWord untilTrue) (Expr.writtenAt_pieces h.1)
      (.intro hrun (Stmt.lines_linePieces h.2)) rfl
  | .loop _ _ _ untilTrue true, _, h =>
    .doBehind rfl (.intro hrun (Stmt.lines_linePieces h.2)) rfl (kind_conditionWord untilTrue)
      (Expr.writtenAt_pieces h.1)
  | .count _ _ _ _ _ _, _, h =>
    .count rfl (h.1.kind_name blank) rfl (Expr.writtenAt_pieces h.2.1) rfl
      (Expr.writtenAt_pieces h.2.2.1) (isWord_word (by decide)) (Expr.writtenAt_pieces h.2.2.2.1)
      (.intro hrun (Stmt.lines_linePieces h.2.2.2.2)) rfl
  | .forEach _ _ _ _, _, h =>
    .forEach rfl rfl (h.1.kind_name blank) (isWord_word (by decide)) (Expr.writtenAt_pieces h.2.1)
      (.intro hrun (Stmt.lines_linePieces h.2.2)) rfl
  | .select _ _ _, _, h =>
    .select rfl rfl (Expr.writtenAt_pieces h.1) hrun (Stmt.casesWritten_casePieces h.2)
      (closes_closingPieces .selectWord)
  | .withObject _ _ _, _, h =>
    .withObject rfl (Expr.writtenAt_pieces h.1) (.intro hrun (Stmt.lines_linePieces h.2))
      (closes_closingPieces .withWord)
  | .exit _ _, _, _ => .exit rfl rfl
  | .optionExplicit _ true, _, _ =>
    .explicitOn rfl (isWord_word (by decide)) (isWord_word (by decide))
  | .optionExplicit _ false, _, _ =>
    .explicitOff rfl (isWord_word (by decide)) (isWord_word (by decide))
  | .onError _ .resumeNext, _, _ =>
    .resumeNext (isWord_word (by decide)) (isWord_word (by decide)) (isWord_word (by decide)) rfl
  | .onError _ .gotoZero, _, _ =>
    .gotoZero (isWord_word (by decide)) (isWord_word (by decide)) (isWord_word (by decide))
      (by decide +kernel)

theorem Stmt.lines_linePieces : ∀ {body : List Stmt} {around : Enclosing},
    Stmt.AreWritable around body → Stmt.Lines around body (Stmt.linePieces run body)
  | [], _, _ => .nil
  | _ :: _, _, h => .cons (Stmt.written_pieces h.1) hrun (Stmt.lines_linePieces h.2)

theorem Stmt.members_linePieces : ∀ {body : List Stmt} {around : Enclosing},
    Stmt.AreWritable around body → (∀ stmt ∈ body, stmt.IsMember) →
      Stmt.Members around body (Stmt.linePieces run body)
  | [], _, _, _ => .nil
  | stmt :: rest, around, h, hmember => by
    have first := Stmt.written_pieces h.1
    have further := Stmt.members_linePieces h.2 fun stmt hstmt =>
      hmember stmt (List.mem_cons_of_mem _ hstmt)
    obtain ⟨p, ps, word, hps, hp, hword⟩ : StartsMember (stmt.pieces run) :=
      (hmember stmt List.mem_cons_self).starts h.1
    rw [Stmt.linePieces, hps]
    exact .cons (hps ▸ first) hp hword hrun further

theorem Stmt.casesWritten_casePieces : ∀ {found : List Case} {around : Enclosing},
    Stmt.AreWritableCases around found →
      Stmt.CasesWritten around found (Stmt.casePieces run found)
  | [], _, _ => .nil
  | .mk none _ :: _, _, h => by
    have rest := Stmt.casesWritten_casePieces h.2
    have body := Stmt.lines_linePieces h.1
    rw [Stmt.casePieces, Case.pieces, List.cons_append]
    exact .otherwise rfl rfl (.intro hrun body) rest
  | .mk (some conditions) body :: rest, _, h => by
    have conditions := separated_commaPieces h.1.1 fun e he => Expr.writtenAt_pieces (h.1.2.1 e he)
    rw [Stmt.casePieces, Case.pieces, List.append_assoc]
    exact .cons rfl conditions (.intro hrun (Stmt.lines_linePieces h.1.2.2))
      (Stmt.casesWritten_casePieces h.2)

theorem Stmt.procedureWritten_pieces : ∀ {decl : Procedure} {word : Keyword}, decl.IsWritable →
    Stmt.ProcedureWritten word decl (decl.pieces run word)
  | .mk _ _ _ _ _, word, h =>
    .intro (h.1.kind_name blank) (paramsWritten_pieces h.2.1)
      (.intro hrun (Stmt.lines_linePieces h.2.2)) (closes_closingPieces word)

end

end

/-! ## The pieces can be laid out -/

theorem spaced_access (access : Access) (h : Spaced ps) : Spaced (access.pieces ++ ps) := by
  cases access with
  | isPublic => exact h
  | isPrivate => exact .keyword .privateWord h

theorem spaced_modifierPieces (access : Access) (isDefault : Bool) (h : Spaced ps) :
    Spaced (modifierPieces access isDefault ++ ps) := by
  cases isDefault with
  | false => exact spaced_access access h
  | true => exact .keyword access.keyword (.word (by decide) h)

theorem PropertyForm.spaced (form : PropertyForm) (h : Spaced ps) : Spaced (form.piece :: ps) := by
  cases form with
  | get | assign => exact .word (by decide) h
  | set => exact .keyword .setWord h

theorem spaced_zero : Spaced [.numeral blank ['0']] := by
  have zero : Number.Decimal.ofNumeral? ['0'] = some ⟨0, 0⟩ := by decide +kernel
  exact .of_piece (Piece.isSpelled_numeral isBlank_blank (isNumeral_digits 0) zero) rfl

section

variable (hrun : Spaced run)

include hrun

mutual

/-- **What the printer makes of a statement can be laid out.** -/
theorem Stmt.spaced_pieces : ∀ {stmt : Stmt} {around : Enclosing}, stmt.IsWritable around →
    Spaced (stmt.pieces run)
  | .block s _, _, h => Stmt.IsGroup.spaced h s
  | .assign _ _ _, _, h => .expr h.2.1 (.symbol .eq (.last h.2.2))
  | .call _ (.call _ _ _), _, h => .keyword .callWord (.last h.2)
  | .const _ _ _, _, h => .keyword .constWord (Stmt.IsConstant.spaced h)
  | .procedure _ decl, _, h =>
    spaced_access decl.access (.keyword decl.kind.keyword (Procedure.spaced_pieces h.2))
  | .property _ form decl isDefault, _, h =>
    spaced_modifierPieces decl.access isDefault
      (.keyword .propertyWord (form.spaced (Procedure.spaced_pieces h.2.2)))
  | .classDecl _ _ _, _, h =>
    .keyword .classWord (.name h.2.1.1 (hrun.append ((Stmt.spaced_linePieces h.2.2.1).append
      (spaced_closingPieces .classWord))))
  | .branch _ _ _ [], _, h =>
    .keyword .ifWord (.expr h.1 (.keyword .thenWord ((hrun.append (Stmt.spaced_linePieces h.2.1)).append
      (Spaced.nil.append (spaced_closingPieces .ifWord)))))
  | .branch _ _ _ (_ :: _), _, h =>
    .keyword .ifWord (.expr h.1 (.keyword .thenWord ((hrun.append (Stmt.spaced_linePieces h.2.1)).append
      ((Spaced.keyword .elseWord (hrun.append (Stmt.spaced_linePieces h.2.2))).append
        (spaced_closingPieces .ifWord)))))
  | .loop _ _ _ untilTrue false, _, h =>
    .keyword .doWord (.keyword _ (.expr h.1 ((hrun.append (Stmt.spaced_linePieces h.2)).append
      (.keyword .loopWord .nil))))
  | .loop _ _ _ untilTrue true, _, h =>
    .keyword .doWord ((hrun.append (Stmt.spaced_linePieces h.2)).append
      (.keyword .loopWord (.keyword _ (.last h.1))))
  | .count _ _ _ _ _ _, _, h =>
    .keyword .forWord (.name h.1.1 (.symbol .eq (.expr h.2.1 (.keyword .toWord (.expr h.2.2.1
      (.word (by decide) (.expr h.2.2.2.1 ((hrun.append (Stmt.spaced_linePieces h.2.2.2.2)).append
        (.keyword .nextWord .nil)))))))))
  | .forEach _ _ _ _, _, h =>
    .keyword .forWord (.keyword .eachWord (.name h.1.1 (.word (by decide) (.expr h.2.1
      ((hrun.append (Stmt.spaced_linePieces h.2.2)).append (.keyword .nextWord .nil))))))
  | .select _ _ _, _, h =>
    .keyword .selectWord (.keyword .caseWord (.expr h.1 (hrun.append
      ((Stmt.spaced_casePieces h.2).append (spaced_closingPieces .selectWord)))))
  | .withObject _ _ _, _, h =>
    .keyword .withWord (.expr h.1 ((hrun.append (Stmt.spaced_linePieces h.2)).append
      (spaced_closingPieces .withWord)))
  | .exit _ target, _, _ => .keyword .exitWord (.keyword target.keyword .nil)
  | .optionExplicit _ on, _, _ =>
    .keyword .optionWord (.word (by decide) (.word (by cases on <;> decide) .nil))
  | .onError _ .resumeNext, _, _ =>
    .word (by decide) (.word (by decide) (.word (by decide) (.keyword .nextWord .nil)))
  | .onError _ .gotoZero, _, _ =>
    .word (by decide) (.word (by decide) (.word (by decide) spaced_zero))

theorem Stmt.spaced_linePieces : ∀ {body : List Stmt} {around : Enclosing},
    Stmt.AreWritable around body → Spaced (Stmt.linePieces run body)
  | [], _, _ => .nil
  | _ :: _, _, h => (Stmt.spaced_pieces h.1).append (hrun.append (Stmt.spaced_linePieces h.2))

theorem Stmt.spaced_casePieces : ∀ {found : List Case} {around : Enclosing},
    Stmt.AreWritableCases around found → Spaced (Stmt.casePieces run found)
  | [], _, _ => .nil
  | .mk none _ :: _, _, h =>
    .keyword .caseWord (.keyword .elseWord ((hrun.append (Stmt.spaced_linePieces h.1)).append
      (Stmt.spaced_casePieces h.2)))
  | .mk (some _) _ :: _, _, h =>
    .keyword .caseWord (((spaced_commaPieces fun e he => Spaced.last (h.1.2.1 e he)).append
      (hrun.append (Stmt.spaced_linePieces h.1.2.2))).append (Stmt.spaced_casePieces h.2))

theorem Procedure.spaced_pieces : ∀ {decl : Procedure} {word : Keyword}, decl.IsWritable →
    Spaced (decl.pieces run word)
  | .mk _ _ _ _ _, word, h =>
    .name h.1.1 ((spaced_params h.2.1).append
      ((hrun.append (Stmt.spaced_linePieces h.2.2)).append (spaced_closingPieces word)))

end

end

end PageScript
