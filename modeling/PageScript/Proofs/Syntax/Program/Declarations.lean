import PageScript.Proofs.Syntax.Program.Blocks

/-!
# Proofs/Syntax/Program/Declarations — variables, constants, procedures and classes are read

One lemma for each reader of `Syntax/Stmt/Parser/Declaration`: it takes what is written and reads the
same declaration up to places.
-/

namespace PageScript

open Parse

namespace Parse

variable {α : Type} {follow : TokenKind → Prop} {result : α → Prop} {ps qs : List Piece}

/-! ## Variables -/

theorem takes_arrayBound {n : Nat} (h : BoundWritten n ps) :
    Takes arrayBound ps follow (n = ·) := by
  obtain ⟨hp, hx⟩ := h
  refine .kind ?_
  rw [hp]
  dsimp only
  rw [hx]
  exact .advance (hp ▸ rfl) fun _ => .pure rfl

theorem starts_bounds {bounds : List Nat} (h : Separated BoundWritten bounds ps) :
    ∃ p qs x, ps = p :: qs ∧ p.kind = .number x := by
  cases h with
  | one h =>
    obtain ⟨hp, -⟩ := h
    exact ⟨_, _, _, rfl, hp⟩
  | cons h =>
    obtain ⟨hp, -⟩ := h
    exact ⟨_, _, _, rfl, hp⟩

theorem takes_arrayBounds {bounds : List Nat} (h : Separated BoundWritten bounds ps) :
    Takes (commaList arrayBound) ps (· ≠ .symbol .comma) (bounds = ·) := by
  have read : Takes (commaList arrayBound) ps (· ≠ .symbol .comma)
      (List.Forall₂ (· = ·) bounds) :=
    h.takes (fun _ _ h => takes_arrayBound h) fun _ hk => hk
  exact read.imp fun _ hfound => List.forall₂_eq_eq_eq ▸ hfound

theorem takes_declaredVariable {access : Access} {stmt : Stmt}
    (h : Stmt.VariableWritten access stmt ps) :
    Takes (declaredVariable access) ps (· ≠ .symbol .lparen) stmt.Same := by
  obtain ⟨hp, hbounds⟩ := h
  refine .span fun _ => .identifier hp ?_
  cases hbounds with
  | scalar =>
    refine .acceptSymbol_of_ne (fun _ hk => hk) ?_
    refine .pure_bind ?_
    exact .previous fun _ => .pure rfl
  | unbound hl hr =>
    refine .acceptSymbol hl ?_
    refine .kind ?_
    rw [hr]
    refine .pure_bind ?_
    refine .requireSymbol hr fun _ => ?_
    refine .pure_bind ?_
    exact .previous fun _ => .pure rfl
  | bound hl h hr =>
    obtain ⟨q, qs, x, rfl, hq⟩ := starts_bounds h
    refine .acceptSymbol hl ?_
    refine .kind ?_
    rw [hq]
    refine .bind (takes_arrayBounds h) ?_ ?_
    · rintro _ rfl
      refine .requireSymbol hr fun _ => ?_
      refine .pure_bind ?_
      exact .previous fun _ => .pure rfl
    · exact .of_kind hr nofun

theorem takes_variableGroup {access : Access} {body : List Stmt} (start s : Span)
    (h : Separated (Stmt.VariableWritten access) body ps) :
    Takes (variableGroup start access) ps TokenKind.Ends (Stmt.block s body).Same := by
  have items : Takes (commaList (declaredVariable access)) ps TokenKind.Ends
      (List.Forall₂ Stmt.Same body) := by
    refine h.takes (fun _ _ h => (takes_declaredVariable h).mono fun _ hk => ?_) fun _ hk => hk.ne_comma
    exact (TokenKind.stopsExpr_of_comma_or hk).lparen
  refine .bind_last items fun found hfound => ?_
  refine .previous fun _ => .pure ?_
  exact congrArg (Stmt.block .origin) (Stmt.sameAll_of_forall₂ hfound)

/-! ## Constants -/

theorem takes_number {p : Piece} {x : Float} (hp : p.kind = .number x) :
    Takes signedNumber [p] follow (x = ·.1) := by
  refine .span fun _ => ?_
  refine .acceptSymbol_of_ne (.of_kind hp nofun) ?_
  refine .acceptSymbol_of_ne (.of_kind hp nofun) ?_
  refine .kind ?_
  rw [hp]
  exact .advance (hp ▸ rfl) fun _ => .pure rfl

theorem takes_negative {sign p : Piece} {x : Float} (hsign : sign.kind = .symbol .minus)
    (hp : p.kind = .number x) : Takes signedNumber [sign, p] follow (-x = ·.1) := by
  refine .span fun _ => .acceptSymbol hsign ?_
  refine .kind ?_
  rw [hp]
  exact .advance (hp ▸ rfl) fun _ => .pure rfl

theorem takes_literal {value : Literal} {s : Span} (h : Expr.Bare (.literal s value) ps) :
    Takes literal ps follow (value = ·) := by
  cases h with
  | @literal _ _ p hvalue =>
    refine .kind ?_
    by_cases hnumber : ∃ x, p.kind = .number x
    · obtain ⟨x, hp⟩ := hnumber
      rw [hp] at hvalue ⊢
      cases hvalue
      exact .bind_last (takes_number hp) fun _ hfound => .pure (congrArg Literal.number hfound)
    · cases hp : p.kind with
      | number x => exact absurd ⟨x, hp⟩ hnumber
      | string | keyword =>
        rw [hp] at hvalue
        dsimp only
        rw [hvalue]
        exact .advance (hp ▸ rfl) fun _ => .pure rfl
      | _ =>
        rw [hp] at hvalue
        cases hvalue
  | negative hsign hnumber =>
    refine .kind ?_
    rw [hsign]
    exact .bind_last (takes_negative hsign hnumber) fun _ hfound =>
      .pure (congrArg Literal.number hfound)

theorem takes_constant {stmt : Stmt} (h : Stmt.ConstantWritten stmt ps) :
    Takes constant ps follow stmt.Same := by
  obtain ⟨hp, heq, hvalue⟩ := h
  refine .span fun _ => .identifier hp ?_
  refine .requireSymbol heq fun _ => ?_
  refine .bind_last (takes_literal hvalue) ?_
  rintro _ rfl
  exact .previous fun _ => .pure rfl

theorem takes_constants {body : List Stmt} (h : Separated Stmt.ConstantWritten body ps) :
    Takes (commaList constant) ps TokenKind.Ends (List.Forall₂ Stmt.Same body) :=
  h.takes (fun _ _ h => takes_constant h) fun _ hk => hk.ne_comma

theorem takes_constantGroup_one {w : Piece} {stmt : Stmt} (start : Span)
    (hw : w.kind = .keyword .constWord) (h : Stmt.ConstantWritten stmt ps) :
    Takes (constantGroup start) (w :: ps) TokenKind.Ends stmt.Same := by
  refine .requireKeyword hw fun _ => .bind_last (takes_constants (.one h)) fun found hfound => ?_
  obtain _ | ⟨hsame, ⟨⟩⟩ := hfound
  refine .previous fun s => .pure ?_
  exact (Stmt.unplaced_withSpan _ _).trans hsame

theorem takes_constantGroup_several {w : Piece} {body : List Stmt} (start s : Span)
    (hw : w.kind = .keyword .constWord) (h : Separated Stmt.ConstantWritten body ps)
    (several : 2 ≤ body.length) :
    Takes (constantGroup start) (w :: ps) TokenKind.Ends (Stmt.block s body).Same := by
  refine .requireKeyword hw fun _ => .bind_last (takes_constants h) fun found hfound => ?_
  refine .previous fun s => ?_
  obtain _ | ⟨hfirst, _ | ⟨hsecond, hrest⟩⟩ := hfound
  · exact absurd several (Nat.not_succ_le_zero 1)
  · exact absurd several (Nat.not_succ_le_self 1)
  · have hfound := Stmt.sameAll_of_forall₂ (.cons hfirst (.cons hsecond hrest))
    exact .pure (congrArg (Stmt.block .origin) hfound)

/-! ## Arrays with new bounds -/

theorem takes_resized {preserve : Bool} {stmt : Stmt} (h : Stmt.ResizedWritten preserve stmt ps) :
    Takes (resized preserve) ps follow stmt.Same := by
  obtain ⟨hp, hl, hbounds, hr⟩ := h
  have bounds : Takes (commaList Expr.parse) _ (· = .symbol .rparen) _ :=
    Expr.takes_separated hbounds fun k hk => hk ▸ ⟨⟨nofun, nofun, rfl⟩, nofun⟩
  refine .span fun _ => .identifier hp ?_
  refine .requireSymbol hl fun _ => ?_
  refine .bind bounds (fun found hfound => ?_) (.of_kind hr rfl)
  refine .requireSymbol hr fun _ => ?_
  refine .previous fun _ => .pure ?_
  exact congrArg (Stmt.redim .origin _ · preserve) (Expr.map_unplaced_of_same hfound)

theorem takes_resizedGroup {preserve : Bool} {body : List Stmt} (start s : Span)
    (h : Separated (Stmt.ResizedWritten preserve) body ps) :
    Takes (commaList (resized preserve) >>= fun body =>
      previous >>= fun s => pure (Stmt.block (start.merge s) body)) ps TokenKind.Ends
      (Stmt.block s body).Same := by
  have items : Takes (commaList (resized preserve)) ps TokenKind.Ends
      (List.Forall₂ Stmt.Same body) :=
    h.takes (fun _ _ h => takes_resized h) fun _ hk => hk.ne_comma
  refine .bind_last items fun found hfound => ?_
  refine .previous fun _ => .pure ?_
  exact congrArg (Stmt.block .origin) (Stmt.sameAll_of_forall₂ hfound)

theorem starts_resized {preserve : Bool} {body : List Stmt}
    (h : Separated (Stmt.ResizedWritten preserve) body ps) : ps ≠ [] := by
  cases h with
  | one h | cons h =>
    obtain ⟨-⟩ := h
    exact List.cons_ne_nil _ _

theorem takes_redimStatement {w : Piece} {body : List Stmt} (s : Span)
    (hw : w.kind = .keyword .reDimWord) (h : Separated (Stmt.ResizedWritten false) body ps)
    (other : Stmt.StartsOtherThan "preserve" ps) :
    Takes redimStatement (w :: ps) TokenKind.Ends (Stmt.block s body).Same := by
  refine .requireKeyword hw fun start => ?_
  obtain ⟨p, qs, rfl⟩ := List.exists_cons_of_ne_nil (starts_resized h)
  exact .accept_false (other p rfl) (takes_resizedGroup start s h)

theorem takes_redimStatement_preserve {w m : Piece} {body : List Stmt} (s : Span)
    (hw : w.kind = .keyword .reDimWord) (hm : m.kind.isWord "preserve" = true)
    (h : Separated (Stmt.ResizedWritten true) body ps) :
    Takes redimStatement (w :: m :: ps) TokenKind.Ends (Stmt.block s body).Same :=
  .requireKeyword hw fun start => .acceptWord hm (takes_resizedGroup start s h)

/-! ## Parameters -/

theorem takes_parameter {param : Param} (h : ParamWritten param ps) :
    Takes parameter ps (· ≠ .symbol .lparen) (param = ·) := by
  -- Nothing that follows a parameter is taken for its parentheses.
  have ahead : Ahead [] (· ≠ .symbol .lparen) fun k => k.isSymbol .lparen = false :=
    fun _ hk => Bool.eq_false_iff.mpr (hk ∘ TokenKind.isSymbol_iff.mp)
  cases h with
  | byRef hw hp =>
    refine .acceptKeyword hw ?_
    refine .identifier hp ?_
    refine .get_ahead ahead fun c hc => ?_
    rw [hc]
    exact .pure rfl
  | byVal hw hp =>
    refine .acceptKeyword_of_ne (.of_kind hw nofun) ?_
    refine .acceptKeyword hw ?_
    refine .identifier hp ?_
    refine .get_ahead ahead fun c hc => ?_
    rw [hc]
    exact .pure rfl
  | bare hp =>
    refine .acceptKeyword_of_ne (.of_kind hp nofun) ?_
    refine .acceptKeyword_of_ne (.of_kind hp nofun) ?_
    refine .identifier hp ?_
    refine .get_ahead ahead fun c hc => ?_
    rw [hc]
    exact .pure rfl

theorem starts_parameters {params : List Param} (h : Separated ParamWritten params ps) :
    ∃ p qs, ps = p :: qs ∧ p.kind ≠ .symbol .rparen := by
  cases h with
  | one h | cons h =>
    cases h with
    | byRef hw | byVal hw => exact ⟨_, _, rfl, by simp [hw]⟩
    | bare hp => exact ⟨_, _, rfl, by simp [hp]⟩

theorem takes_parameters {params : List Param} (h : ParamsWritten params ps) :
    Takes parameters ps (· ≠ .symbol .lparen) (params = ·) := by
  cases h with
  | bare => exact .acceptSymbol_of_ne (fun _ hk => hk) (.pure rfl)
  | empty hl hr => exact .acceptSymbol hl (.acceptSymbol hr (.pure rfl))
  | some hl h hr =>
    obtain ⟨q, qs, rfl, hq⟩ := starts_parameters h
    have items : Takes (commaList parameter) (q :: qs) (· = .symbol .rparen)
        (List.Forall₂ (· = ·) params) := by
      refine h.takes (fun _ _ h => (takes_parameter h).mono fun k hk => ?_) fun k hk => hk ▸ nofun
      obtain rfl | rfl := hk <;> exact nofun
    refine .acceptSymbol hl ?_
    refine .acceptSymbol_of_ne hq ?_
    refine .bind items (fun found hfound => ?_) (.of_kind hr rfl)
    refine .requireSymbol hr fun _ => .pure ?_
    exact List.forall₂_eq_eq_eq ▸ hfound

/-! ## Procedures -/

section

variable {statement : Enclosing → Parse Stmt} {bound : Nat} {around : Enclosing} {decl : Procedure}
  {w : Piece}

/-- A procedure is read from its name on. -/
theorem takes_procedureTail {word : Keyword} {f : Name → List Param → List Stmt → Parse α}
    (hstatement : Stmt.TakesUpTo statement bound) (h : Stmt.ProcedureWritten word decl ps)
    (hps : ps.length ≤ bound)
    (hf : ∀ body, Stmt.SameAll decl.body body → Takes (f decl.name decl.params body) [] follow result) :
    Takes (identifier >>= fun name => parameters >>= fun params => procedureBody statement >>=
      fun body => requireKeyword .endWord >>= fun _ => requireKeyword word >>= fun _ =>
        f name params body) ps follow result := by
  obtain ⟨hp, hparams, ⟨hrun, hlines⟩, hes⟩ := h
  have body := (Stmt.Body.intro hrun hlines).takes hstatement
    (by simp only [List.length_append, List.length_cons] at hps ⊢; omega) [.endWord] (by decide)
  refine .identifier hp ?_
  refine .bind (takes_parameters hparams) ?_ ?_
  · rintro _ rfl
    exact .bind body (fun found hfound => hes.takes (hf found hfound))
      (hes.ahead List.mem_cons_self)
  · rw [List.append_assoc]
    exact hrun.ahead.imp fun _ h => h.stopsExpr.lparen

theorem outsideProcedure_eq (outside : around.inProcedure = false) :
    outsideProcedure around = pure () := by
  rw [outsideProcedure, outside]
  rfl

theorem takes_procedureFrom (start s : Span) (outside : around.inProcedure = false)
    (hstatement : Stmt.TakesUpTo statement bound) (hw : w.kind = .keyword decl.kind.keyword)
    (h : Stmt.ProcedureWritten decl.kind.keyword decl ps) (hps : ps.length ≤ bound) :
    Takes (procedureFrom statement around start decl.access) (w :: ps) follow
      (Stmt.procedure s decl).Same := by
  rw [procedureFrom, outsideProcedure_eq outside]
  refine .pure_bind ?_
  obtain ⟨name, form, params, body, access⟩ := decl
  have same {found : List Stmt} (hfound : Stmt.SameAll body found) (s' : Span) :
      (Stmt.procedure s (.mk name form params body access)).Same
        (.procedure s' (.mk name form params found access)) :=
    congrArg (fun body => Stmt.procedure .origin (.mk name form params body access)) hfound
  cases form with
  | sub =>
    refine .acceptKeyword hw ?_
    exact takes_procedureTail hstatement h hps fun found hfound =>
      .previous fun _ => .pure (same hfound _)
  | function =>
    refine .acceptKeyword_of_ne (.of_kind hw nofun) ?_
    refine .requireKeyword hw fun _ => ?_
    exact takes_procedureTail hstatement h hps fun found hfound =>
      .previous fun _ => .pure (same hfound _)

/-! ## Properties -/

theorem takes_propertyForm {form : PropertyForm} {p : Piece} (h : FormWritten form p.kind) :
    Takes propertyForm [p] (fun _ => True) (form = ·) := by
  generalize hkind : p.kind = kind at h
  cases h with
  | get h =>
    subst hkind
    exact .acceptKeyword_of_ne (TokenKind.ne_keyword_of_isWord h) (.acceptWord h (.pure rfl))
  | assign h =>
    subst hkind
    have other : p.kind.isWord "get" = false := TokenKind.isWord_of_ne h (by decide +kernel)
    refine .acceptKeyword_of_ne (TokenKind.ne_keyword_of_isWord h) ?_
    exact .accept_false other (.acceptWord h (.pure rfl))
  | set => exact .acceptKeyword hkind (.pure rfl)

theorem takes_propertyFrom {form : PropertyForm} {f : Piece} (start s : Span) (isDefault : Bool)
    (inside : around.inClass = true) (hstatement : Stmt.TakesUpTo statement bound)
    (hw : w.kind = .keyword .propertyWord) (hf : FormWritten form f.kind)
    (hkind : decl.kind = .function) (h : Stmt.ProcedureWritten .propertyWord decl ps)
    (hps : ps.length ≤ bound) :
    Takes (propertyFrom statement around start decl.access isDefault) (w :: f :: ps) follow
      (Stmt.property s form decl isDefault).Same := by
  rw [propertyFrom, inside]
  refine .requireKeyword hw fun _ => ?_
  refine .bind (takes_propertyForm hf) ?_ .trivial
  rintro _ rfl
  obtain ⟨name, _, params, body, access⟩ := decl
  obtain rfl : _ = ProcedureForm.function := hkind
  refine takes_procedureTail hstatement h hps fun found hfound => .previous fun _ => .pure ?_
  exact congrArg (fun body => Stmt.property .origin form (.mk name .function params body access)
    isDefault) hfound

/-! ## Declarations behind an access -/

theorem takes_modifiedDeclaration {access : Access} {p : Piece} {result : Stmt → Prop}
    (hp : p.kind = .keyword access.keyword)
    (hf : ∀ start, Takes (declarationBehind statement around start access) ps follow result) :
    Takes (modifiedDeclaration statement around) (p :: ps) follow result := by
  refine .span fun start => ?_
  cases access with
  | isPublic =>
    refine .acceptKeyword_of_ne (.of_kind hp nofun) ?_
    exact .requireKeyword hp fun _ => hf start
  | isPrivate => exact .acceptKeyword hp (hf start)

/-- The access takes the place of `dim`. -/
theorem takes_accessed {access : Access} {body : List Stmt} (s : Span)
    (hw : w.kind = .keyword access.keyword)
    (h : Separated (Stmt.VariableWritten access) body ps) (other : Stmt.StartsOtherThan "default" ps) :
    Takes (modifiedDeclaration statement around) (w :: ps) TokenKind.Ends
      (Stmt.block s body).Same := by
  refine takes_modifiedDeclaration hw fun start => ?_
  obtain ⟨p, qs, name, rfl, hp⟩ : ∃ p qs name, ps = p :: qs ∧ p.kind = .ident name := by
    cases h with
    | one h | cons h =>
      obtain ⟨hp, -⟩ := h
      exact ⟨_, _, _, rfl, hp⟩
  refine .accept_false (other p rfl) (.kind ?_)
  rw [hp]
  exact takes_variableGroup start s h

/-- A function or sub with an access in front. -/
theorem takes_procedure_modified {p : Piece} (s : Span) (outside : around.inProcedure = false)
    (hstatement : Stmt.TakesUpTo statement bound) (hp : p.kind = .keyword decl.access.keyword)
    (hw : w.kind = .keyword decl.kind.keyword)
    (h : Stmt.ProcedureWritten decl.kind.keyword decl ps) (hps : ps.length ≤ bound) :
    Takes (modifiedDeclaration statement around) (p :: w :: ps) follow
      (Stmt.procedure s decl).Same := by
  refine takes_modifiedDeclaration hp fun start => ?_
  have read : Takes (procedureFrom statement around start decl.access) (w :: ps) follow
      (Stmt.procedure s decl).Same :=
    takes_procedureFrom start s outside hstatement hw h hps
  refine .accept_false (.of_kind hw rfl) (.kind ?_)
  rw [hw]
  cases hkind : decl.kind <;> exact read

/-- A property with an access in front, and perhaps the mark of a default property. -/
theorem takes_property_modified {form : PropertyForm} {isDefault : Bool} {p f : Piece}
    {ms : List Piece} (s : Span) (hp : p.kind = .keyword decl.access.keyword)
    (hm : Modified decl.access isDefault (p :: ms))
    (inside : around.inClass = true) (hstatement : Stmt.TakesUpTo statement bound)
    (hw : w.kind = .keyword .propertyWord) (hf : FormWritten form f.kind)
    (hkind : decl.kind = .function) (h : Stmt.ProcedureWritten .propertyWord decl ps)
    (hps : ps.length ≤ bound) :
    Takes (modifiedDeclaration statement around) (p :: (ms ++ w :: f :: ps)) follow
      (Stmt.property s form decl isDefault).Same := by
  refine takes_modifiedDeclaration hp fun start => ?_
  have read : Takes (propertyFrom statement around start decl.access isDefault) (w :: f :: ps) follow
      (Stmt.property s form decl isDefault).Same :=
    takes_propertyFrom start s isDefault inside hstatement hw hf hkind h hps
  generalize decl.access = access at hm read
  cases hm with
  | access =>
    refine .accept_false (.of_kind hw rfl) (.kind ?_)
    rw [hw]
    exact read
  | marked _ hq =>
    refine .acceptWord hq (.kind ?_)
    rw [hw]
    exact read

/-! ## Classes -/

/-- No member starts with a word that ends the class. -/
theorem goes_of_mem_memberWords {word : Keyword} (h : word ∈ Stmt.memberWords) :
    ¬((TokenKind.keyword word).isEnd || (TokenKind.keyword word).isKeyword .endWord) = true := by
  simp only [Stmt.memberWords, List.mem_cons, List.not_mem_nil, or_false] at h
  obtain rfl | rfl | rfl | rfl | rfl | rfl | rfl := h <;> decide

/-- **The members of a class are read.** -/
theorem takes_members (hstatement : Stmt.TakesUpTo statement bound) :
    ∀ {body : List Stmt} {ps seps : List Piece} {n : Nat}, Stmt.Members around body ps →
      ps.length ≤ bound → (∀ p ∈ seps, p.kind.IsJoint) → seps.length + ps.length ≤ n + 1 →
        Takes (members (statement around) (n + 1)) (seps ++ ps) (· = .keyword .endWord)
          (Stmt.SameAll body)
  | _, _, _, _, .nil, _, hseps, _ => by
    refine Stmt.takes_dropSeparators hseps Stmt.stays_of_end ?_
    refine .kind_ahead (fun _ hk => hk) fun k hk => ?_
    rw [hk]
    exact .pure rfl
  | _, _, seps, n, .cons first hp hword hrun further, hps, hseps, hn => by
    have starts := first.starts
    have behind {rest : List Piece} :
        Ahead (_ ++ rest) (· = .keyword .endWord) TokenKind.IsJoint := hrun.ahead
    have second := List.length_pos_iff.mpr hrun.ne_nil
    simp only [List.length_append, List.length_cons] at hps hn
    obtain ⟨n, rfl⟩ : ∃ n', n = n' + 1 := ⟨n - 1, by omega⟩
    refine Stmt.takes_dropSeparators hseps (starts.ahead.imp fun _ h => h.stays) ?_
    refine .kind ?_
    rw [hp]
    refine .if_false (goes_of_mem_memberWords hword) ?_
    refine .if_true (List.any_eq_true.mpr ⟨_, hword, beq_self_eq_true _⟩) ?_
    refine .bind (hstatement first ?_) (fun _ hfirst => ?_) (behind.imp fun _ h => h.ends)
    · rw [List.length_cons]
      omega
    · refine Stmt.takes_statementEnd (behind.imp fun _ h => h.ends) ?_
      have rest := takes_members (n := n) hstatement further (by omega) hrun.joints (by omega)
      exact .bind_last rest fun _ hrest => .pure (congrArg₂ List.cons hfirst hrest)

theorem takes_classStatement {p : Piece} {name : Name} {body : List Stmt} {run es : List Piece}
    (s : Span) (outside : around.inProcedure = false) (hstatement : Stmt.TakesUpTo statement bound)
    (hw : w.kind = .keyword .classWord) (hp : p.kind = .ident name) (hrun : IsRun run)
    (h : Stmt.Members { around with inClass := true } body ps) (hes : Closes .classWord es)
    (hps : ps.length ≤ bound) :
    Takes (classStatement statement around) (w :: p :: (run ++ (ps ++ es))) follow
      (Stmt.classDecl s name body).Same := by
  rw [classStatement, outsideProcedure_eq outside]
  refine .pure_bind ?_
  refine .requireKeyword hw fun _ => .identifier hp ?_
  refine .remaining fun n hn => ?_
  have pos := List.length_pos_iff.mpr hrun.ne_nil
  rw [List.length_append, List.length_append] at hn
  obtain ⟨n, rfl⟩ : ∃ n', n = n' + 1 := ⟨n - 1, by omega⟩
  have read := takes_members (n := n) hstatement h hps hrun.joints (by omega)
  rw [← List.append_assoc]
  refine .bind read (fun found hfound => ?_) hes.ahead_end
  refine hes.takes (.previous fun _ => .pure ?_)
  exact congrArg (Stmt.classDecl .origin name) hfound

end

end Parse

end PageScript
