import PageScript.Proofs.Syntax.Program.Taking
import PageScript.Syntax.Stmt.Parser

/-!
# Proofs/Syntax/Program/Writing — how statements may be written

`Stmt.Written around stmt ps` says that the pieces `ps` are a way to write `stmt` where `around`
encloses it.  Statements stand in blocks: there is a run of separators behind the head of a block and
behind every statement of its body (`Stmt.Body`).  Expressions may be written in all the ways in which
they can be written on their own (`Expr.WrittenAt`); only a chain that a statement starts with has no
parentheses around a part of it (`Expr.ChainWritten`).
-/

namespace PageScript

open Parse (Separated)

/-! ## Separators -/

/-- The token separates statements: a line break, a colon, or a delimiter of a code region. -/
def TokenKind.IsJoint : TokenKind → Prop
  | .lineBreak | .symbol .colon | .closeCode | .openCode => True
  | _ => False

/-- Separators, at least one. -/
structure IsRun (run : List Piece) : Prop where
  ne_nil : run ≠ []
  joints : ∀ p ∈ run, p.kind.IsJoint

/-! ## Chains -/

namespace Expr

/-- Pieces that write a chain from its head on: a name, or a member of the `with` object, and then
members and arguments. -/
inductive ChainWritten : Expr → List Piece → Prop
  | var {s name p} (hname : p.kind = .ident name) : ChainWritten (.var s name) [p]
  | withMember {s name dot p} (hdot : dot.kind = .symbol .dot)
      (hname : p.kind.memberName? = some name) : ChainWritten (.withMember s name) [dot, p]
  | member {s object name ps dot p} (hobject : ChainWritten object ps)
      (hdot : dot.kind = .symbol .dot) (touching : dot.gap = [])
      (hname : p.kind.memberName? = some name) :
      ChainWritten (.member s object name) (ps ++ [dot, p])
  | apply {s callee ps l r} (hcallee : ChainWritten callee ps) (hl : l.kind = .symbol .lparen)
      (hr : r.kind = .symbol .rparen) (touching : r.gap = []) :
      ChainWritten (.call s callee []) (ps ++ [l, r])
  | call {s callee args ps l qs r} (hcallee : ChainWritten callee ps)
      (hl : l.kind = .symbol .lparen) (hargs : ArgsWritten args qs)
      (hr : r.kind = .symbol .rparen) :
      ChainWritten (.call s callee args) (ps ++ l :: (qs ++ [r]))

end Expr

/-! ## Parts of declarations -/

/-- The word for an access. -/
def Access.keyword : Access → Keyword
  | isPublic => .publicWord
  | isPrivate => .privateWord

/-- The word for a form of procedure. -/
def ProcedureForm.keyword : ProcedureForm → Keyword
  | function => .functionWord
  | sub => .subWord

/-- What stands in front of a declaration in a class or script: nothing, or the access, behind which
`default` may stand. -/
inductive Modified : Access → Bool → List Piece → Prop
  | bare : Modified .isPublic false []
  | access {access p} (hp : p.kind = .keyword access.keyword) : Modified access false [p]
  | marked {access p q} (hp : p.kind = .keyword access.keyword)
      (hq : q.kind.isWord "default" = true) : Modified access true [p, q]

theorem Modified.nil_or_cons {access : Access} {isDefault : Bool} {ms : List Piece}
    (h : Modified access isDefault ms) :
    (access = .isPublic ∧ isDefault = false ∧ ms = []) ∨
      ∃ p qs, ms = p :: qs ∧ p.kind = .keyword access.keyword ∧ (isDefault = false → qs = []) := by
  cases h with
  | bare => exact .inl ⟨rfl, rfl, rfl⟩
  | access hp => exact .inr ⟨_, [], rfl, hp, fun _ => rfl⟩
  | marked hp => exact .inr ⟨_, _, rfl, hp, nofun⟩

/-- Pieces that write a bound of an array. -/
inductive BoundWritten : Nat → List Piece → Prop
  | intro {n x p} (hp : p.kind = .number x) (hx : Parse.bound? x = some n) : BoundWritten n [p]

/-- Pieces that write the bounds behind a declared name. -/
inductive BoundsWritten : Option (List Nat) → List Piece → Prop
  | scalar : BoundsWritten none []
  | unbound {l r} (hl : l.kind = .symbol .lparen) (hr : r.kind = .symbol .rparen) :
      BoundsWritten (some []) [l, r]
  | bound {bounds l ps r} (hl : l.kind = .symbol .lparen) (h : Separated BoundWritten bounds ps)
      (hr : r.kind = .symbol .rparen) : BoundsWritten (some bounds) (l :: (ps ++ [r]))

/-- Pieces that write a parameter. -/
inductive ParamWritten : Param → List Piece → Prop
  | byRef {name w p} (hw : w.kind = .keyword .byRefWord) (hp : p.kind = .ident name) :
      ParamWritten ⟨name, true⟩ [w, p]
  | byVal {name w p} (hw : w.kind = .keyword .byValWord) (hp : p.kind = .ident name) :
      ParamWritten ⟨name, false⟩ [w, p]
  | bare {name p} (hp : p.kind = .ident name) : ParamWritten ⟨name, false⟩ [p]

/-- Pieces that write the parameters of a procedure. -/
inductive ParamsWritten : List Param → List Piece → Prop
  | bare : ParamsWritten [] []
  | empty {l r} (hl : l.kind = .symbol .lparen) (hr : r.kind = .symbol .rparen) :
      ParamsWritten [] [l, r]
  | some {params l ps r} (hl : l.kind = .symbol .lparen) (h : Separated ParamWritten params ps)
      (hr : r.kind = .symbol .rparen) : ParamsWritten params (l :: (ps ++ [r]))

/-- The word for a form of property. -/
inductive FormWritten : PropertyForm → TokenKind → Prop
  | get {kind} (h : kind.isWord "get" = true) : FormWritten .get kind
  | assign {kind} (h : kind.isWord "let" = true) : FormWritten .assign kind
  | set : FormWritten .set (.keyword .setWord)

/-- The word for what an `exit` statement leaves. -/
def ExitTarget.keyword : ExitTarget → Keyword
  | function => .functionWord
  | sub => .subWord
  | property => .propertyWord
  | doLoop => .doWord
  | forLoop => .forWord

/-- The words at the end of a block. -/
inductive Closes (word : Keyword) : List Piece → Prop
  | intro {e w} (he : e.kind = .keyword .endWord) (hw : w.kind = .keyword word) : Closes word [e, w]

namespace Stmt

/-- Pieces that write a variable in a list of variables. -/
inductive VariableWritten (access : Access) : Stmt → List Piece → Prop
  | intro {s name bounds p ps} (hp : p.kind = .ident name) (h : BoundsWritten bounds ps) :
      VariableWritten access (.dim s name bounds access) (p :: ps)

/-- Pieces that write a constant in a list of constants. -/
inductive ConstantWritten : Stmt → List Piece → Prop
  | intro {s s' name value p eq ps} (hp : p.kind = .ident name) (heq : eq.kind = .symbol .eq)
      (h : Expr.Bare (.literal s' value) ps) : ConstantWritten (.const s name value) (p :: eq :: ps)

/-- Pieces that write an array with new bounds in a list of such arrays. -/
inductive ResizedWritten (preserve : Bool) : Stmt → List Piece → Prop
  | intro {s name bounds p l ps r} (hp : p.kind = .ident name) (hl : l.kind = .symbol .lparen)
      (h : Separated (Expr.WrittenAt 0) bounds ps) (hr : r.kind = .symbol .rparen) :
      ResizedWritten preserve (.redim s name bounds preserve) (p :: l :: (ps ++ [r]))

/-- The first piece is not a certain word. -/
def StartsOtherThan (spelling : String) (ps : List Piece) : Prop :=
  ∀ p ∈ ps.head?, p.kind.isWord spelling = false

/-- The words that a member of a class starts with. -/
def memberWords : List Keyword :=
  [.dimWord, .publicWord, .privateWord, .constWord, .functionWord, .subWord, .propertyWord]

/-! ## Statements -/

mutual

/-- Pieces that write a statement. -/
inductive Written : Enclosing → Stmt → List Piece → Prop
  | assign {around s target value ps eq qs} (htarget : target.ChainWritten ps)
      (heq : eq.kind = .symbol .eq) (hvalue : Expr.WrittenAt 0 value qs) :
      Written around (.assign s target value) (ps ++ eq :: qs)
  | call {around s s' callee args w ps} (hw : w.kind = .keyword .callWord)
      (h : (Expr.call s' callee args).ChainWritten ps) :
      Written around (.call s (.call s' callee args)) (w :: ps)
  | dim {around s body w ps} (hw : w.kind = .keyword .dimWord)
      (h : Separated (VariableWritten .isPublic) body ps) : Written around (.block s body) (w :: ps)
  /-- The access takes the place of `dim`, but then a first variable `default` would be read as the
  mark of a default property. -/
  | accessed {around s access body w ps} (hw : w.kind = .keyword access.keyword)
      (h : Separated (VariableWritten access) body ps) (other : StartsOtherThan "default" ps) :
      Written around (.block s body) (w :: ps)
  | const {around stmt w ps} (hw : w.kind = .keyword .constWord) (h : ConstantWritten stmt ps) :
      Written around stmt (w :: ps)
  | constants {around s body w ps} (hw : w.kind = .keyword .constWord)
      (h : Separated ConstantWritten body ps) (several : 2 ≤ body.length) :
      Written around (.block s body) (w :: ps)
  /-- A first array `preserve` would be read as the mark. -/
  | redim {around s body w ps} (hw : w.kind = .keyword .reDimWord)
      (h : Separated (ResizedWritten false) body ps) (other : StartsOtherThan "preserve" ps) :
      Written around (.block s body) (w :: ps)
  | redimPreserve {around s body w m ps} (hw : w.kind = .keyword .reDimWord)
      (hm : m.kind.isWord "preserve" = true) (h : Separated (ResizedWritten true) body ps) :
      Written around (.block s body) (w :: m :: ps)
  | procedure {around s decl ms w ps} (outside : around.inProcedure = false)
      (hm : Modified decl.access false ms) (hw : w.kind = .keyword decl.kind.keyword)
      (h : ProcedureWritten decl.kind.keyword decl ps) :
      Written around (.procedure s decl) (ms ++ w :: ps)
  | property {around s form decl isDefault ms w f ps} (inside : around.inClass = true)
      (hm : Modified decl.access isDefault ms) (hw : w.kind = .keyword .propertyWord)
      (hf : FormWritten form f.kind) (hkind : decl.kind = .function)
      (h : ProcedureWritten .propertyWord decl ps) :
      Written around (.property s form decl isDefault) (ms ++ w :: f :: ps)
  | classDecl {around s name members w p run ps es} (outside : around.inProcedure = false)
      (hw : w.kind = .keyword .classWord) (hp : p.kind = .ident name) (hrun : IsRun run)
      (h : Members { around with inClass := true } members ps) (hes : Closes .classWord es) :
      Written around (.classDecl s name members) (w :: p :: (run ++ (ps ++ es)))
  | branch {around s cond thenBody elseBody w cs t bs ps es} (hw : w.kind = .keyword .ifWord)
      (hcond : Expr.WrittenAt 0 cond cs) (ht : t.kind = .keyword .thenWord)
      (hthen : Body around thenBody bs) (helse : ElseWritten around elseBody ps)
      (hes : Closes .ifWord es) :
      Written around (.branch s cond thenBody elseBody) (w :: (cs ++ t :: (bs ++ (ps ++ es))))
  | whileLoop {around s cond body w cs bs e} (hw : w.kind = .keyword .whileWord)
      (hcond : Expr.WrittenAt 0 cond cs) (hbody : Body around body bs)
      (he : e.kind = .keyword .wendWord) :
      Written around (.loop s cond body false false) (w :: (cs ++ (bs ++ [e])))
  | doBefore {around s cond body untilTrue w u cs bs e} (hw : w.kind = .keyword .doWord)
      (hu : u.kind = .keyword (if untilTrue then .untilWord else .whileWord))
      (hcond : Expr.WrittenAt 0 cond cs) (hbody : Body around body bs)
      (he : e.kind = .keyword .loopWord) :
      Written around (.loop s cond body untilTrue false) (w :: u :: (cs ++ (bs ++ [e])))
  | doBehind {around s cond body untilTrue w u cs bs e} (hw : w.kind = .keyword .doWord)
      (hbody : Body around body bs) (he : e.kind = .keyword .loopWord)
      (hu : u.kind = .keyword (if untilTrue then .untilWord else .whileWord))
      (hcond : Expr.WrittenAt 0 cond cs) :
      Written around (.loop s cond body untilTrue true) (w :: (bs ++ e :: u :: cs))
  | count {around s var first last step body w v eq fs t ls m ss bs n}
      (hw : w.kind = .keyword .forWord) (hv : v.kind = .ident var) (heq : eq.kind = .symbol .eq)
      (hfirst : Expr.WrittenAt 0 first fs) (ht : t.kind = .keyword .toWord)
      (hlast : Expr.WrittenAt 0 last ls) (hm : m.kind.isWord "step" = true)
      (hstep : Expr.WrittenAt 0 step ss) (hbody : Body around body bs)
      (hn : n.kind = .keyword .nextWord) :
      Written around (.count s var first last step body)
        (w :: v :: eq :: (fs ++ t :: (ls ++ m :: (ss ++ (bs ++ [n])))))
  | forEach {around s var collection body w e v i cs bs n} (hw : w.kind = .keyword .forWord)
      (he : e.kind = .keyword .eachWord) (hv : v.kind = .ident var)
      (hi : i.kind.isWord "in" = true) (hcollection : Expr.WrittenAt 0 collection cs)
      (hbody : Body around body bs) (hn : n.kind = .keyword .nextWord) :
      Written around (.forEach s var collection body) (w :: e :: v :: i :: (cs ++ (bs ++ [n])))
  | select {around s subject cases w c ss run ps es} (hw : w.kind = .keyword .selectWord)
      (hc : c.kind = .keyword .caseWord) (hsubject : Expr.WrittenAt 0 subject ss)
      (hrun : IsRun run) (h : CasesWritten around cases ps) (hes : Closes .selectWord es) :
      Written around (.select s subject cases) (w :: c :: (ss ++ (run ++ (ps ++ es))))
  | withObject {around s object body w os bs es} (hw : w.kind = .keyword .withWord)
      (hobject : Expr.WrittenAt 0 object os) (hbody : Body around body bs)
      (hes : Closes .withWord es) :
      Written around (.withObject s object body) (w :: (os ++ (bs ++ es)))
  | exit {around s target w t} (hw : w.kind = .keyword .exitWord)
      (ht : t.kind = .keyword target.keyword) : Written around (.exit s target) [w, t]
  | explicit {around s w e} (hw : w.kind = .keyword .optionWord)
      (he : e.kind.isWord "explicit" = true) : Written around (.optionExplicit s true) [w, e]
  | explicitOn {around s w e o} (hw : w.kind = .keyword .optionWord)
      (he : e.kind.isWord "explicit" = true) (ho : o.kind.isWord "on" = true) :
      Written around (.optionExplicit s true) [w, e, o]
  | explicitOff {around s w e o} (hw : w.kind = .keyword .optionWord)
      (he : e.kind.isWord "explicit" = true) (ho : o.kind.isWord "off" = true) :
      Written around (.optionExplicit s false) [w, e, o]
  | resumeNext {around s o e r n} (ho : o.kind.isWord "on" = true)
      (he : e.kind.isWord "error" = true) (hr : r.kind.isWord "resume" = true)
      (hn : n.kind = .keyword .nextWord) : Written around (.onError s .resumeNext) [o, e, r, n]
  | gotoZero {around s o e g z} (ho : o.kind.isWord "on" = true)
      (he : e.kind.isWord "error" = true) (hg : g.kind.isWord "goto" = true)
      (hz : Parse.isZero z.kind = true) : Written around (.onError s .gotoZero) [o, e, g, z]

/-- Pieces that write statements, each with separators behind it. -/
inductive Lines : Enclosing → List Stmt → List Piece → Prop
  | nil {around} : Lines around [] []
  | cons {around stmt rest ps run qs} (first : Written around stmt ps) (hrun : IsRun run)
      (further : Lines around rest qs) : Lines around (stmt :: rest) (ps ++ (run ++ qs))

/-- Pieces that write the statements of a block, behind its head. -/
inductive Body : Enclosing → List Stmt → List Piece → Prop
  | intro {around body run ps} (hrun : IsRun run) (h : Lines around body ps) :
      Body around body (run ++ ps)

/-- Pieces that write the rest of a branch, from `else` or `elseif` up to `end`. -/
inductive ElseWritten : Enclosing → List Stmt → List Piece → Prop
  | nothing {around} : ElseWritten around [] []
  | otherwise {around body w bs} (hw : w.kind = .keyword .elseWord) (hbody : Body around body bs) :
      ElseWritten around body (w :: bs)
  | elseIf {around s cond thenBody elseBody w cs t bs ps} (hw : w.kind = .keyword .elseIfWord)
      (hcond : Expr.WrittenAt 0 cond cs) (ht : t.kind = .keyword .thenWord)
      (hthen : Body around thenBody bs) (helse : ElseWritten around elseBody ps) :
      ElseWritten around [.branch s cond thenBody elseBody] (w :: (cs ++ t :: (bs ++ ps)))

/-- Pieces that write the cases of a selection. -/
inductive CasesWritten : Enclosing → List Case → List Piece → Prop
  | nil {around} : CasesWritten around [] []
  | cons {around conditions body rest w cs bs ps} (hw : w.kind = .keyword .caseWord)
      (hconditions : Separated (Expr.WrittenAt 0) conditions cs) (hbody : Body around body bs)
      (further : CasesWritten around rest ps) :
      CasesWritten around (.mk (some conditions) body :: rest) (w :: (cs ++ (bs ++ ps)))
  | otherwise {around body rest w e bs ps} (hw : w.kind = .keyword .caseWord)
      (he : e.kind = .keyword .elseWord) (hbody : Body around body bs)
      (further : CasesWritten around rest ps) :
      CasesWritten around (.mk none body :: rest) (w :: e :: (bs ++ ps))

/-- Pieces that write the members of a class. -/
inductive Members : Enclosing → List Stmt → List Piece → Prop
  | nil {around} : Members around [] []
  | cons {around stmt rest p ps run qs word} (first : Written around stmt (p :: ps))
      (hp : p.kind = .keyword word) (hword : word ∈ memberWords) (hrun : IsRun run)
      (further : Members around rest qs) :
      Members around (stmt :: rest) (p :: ps ++ (run ++ qs))

/-- Pieces that write a procedure from its name on. -/
inductive ProcedureWritten : Keyword → Procedure → List Piece → Prop
  | intro {word name kind params body access p ps bs es} (hp : p.kind = .ident name)
      (hparams : ParamsWritten params ps) (hbody : Body ⟨false, true⟩ body bs)
      (hes : Closes word es) :
      ProcedureWritten word (.mk name kind params body access) (p :: (ps ++ (bs ++ es)))

end

/-- Pieces that write a whole program: separators may stand in front of the first statement, and none
have to stand behind the last one. -/
inductive ProgramWritten : List Stmt → List Piece → Prop
  | closed {body seps ps} (hseps : ∀ p ∈ seps, p.kind.IsJoint)
      (h : Lines ⟨false, false⟩ body ps) : ProgramWritten body (seps ++ ps)
  | trailing {body last seps ps qs} (hseps : ∀ p ∈ seps, p.kind.IsJoint)
      (h : Lines ⟨false, false⟩ body ps) (hlast : Written ⟨false, false⟩ last qs) :
      ProgramWritten (body ++ [last]) (seps ++ (ps ++ qs))

end Stmt

end PageScript
