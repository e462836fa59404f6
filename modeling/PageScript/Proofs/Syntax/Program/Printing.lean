import PageScript.Proofs.Syntax.Printing
import PageScript.Proofs.Syntax.Program.Writing
import PageScript.Syntax.Stmt.Parser.Declaration

/-!
# Proofs/Syntax/Program/Printing — programs as source

Printed pieces are laid out whatever stands behind them (`Spaced`), because they start with a blank
or with a separator, where every token ends.  Statements are joined by runs of separators: line
breaks, colons, and delimiters that close a code region and open the next (`Joint`).

`Stmt.source` writes statements in their block forms, with blanks between all tokens outside
expressions and with the same separators behind every statement and every head of a block.  For
statements that can be written at all (`Stmt.AreWritable`) this is a way to write them.
-/

namespace PageScript

/-! ## Pieces that can stand one behind the other -/

section

variable {ps qs : List Piece} {rest : List Char} {gap : List Char}

/-- Every token ends before the characters. -/
def Clear (rest : List Char) : Prop := ∀ kind : TokenKind, kind.EndsAt rest

theorem clear_nil : Clear [] := fun _ => nofun

theorem clear_cons {c : Char} (h : ∀ kind : TokenKind, kind.endsBefore c = true) :
    Clear (c :: rest) := by
  rintro kind _ ⟨⟩
  exact h kind

/-- An equals sign would be a part of some tokens. -/
theorem Clear.head?_ne (h : Clear rest) : rest.head? ≠ some '=' := by
  intro heq
  exact absurd (h (.symbol .lt) '=' heq) (by decide)

/-- Pieces that can stand in front of everything, and behind every token. -/
structure Spaced (ps : List Piece) : Prop where
  clear : ∀ {rest}, Clear rest → Clear (ps.flatMap Piece.text ++ rest)
  laid : ∀ {qs rest}, Layout .code qs rest → Clear rest →
    Layout .code (ps ++ qs) (ps.flatMap Piece.text ++ rest)

namespace Spaced

theorem nil : Spaced [] := ⟨fun h => h, fun h _ => h⟩

theorem append (hps : Spaced ps) (hqs : Spaced qs) : Spaced (ps ++ qs) where
  clear h := by
    rw [List.flatMap_append, List.append_assoc]
    exact hps.clear (hqs.clear h)
  laid h hclear := by
    rw [List.flatMap_append, List.append_assoc, List.append_assoc]
    exact hps.laid (hqs.laid h hclear) (hqs.clear hclear)

theorem cons {p : Piece} (hp : Spaced [p]) (hps : Spaced ps) : Spaced (p :: ps) := hp.append hps

/-- Pieces that stay apart are spaced if a blank stands in front of them. -/
theorem of_neat (h : Neat blank ps) : Spaced ps where
  clear hclear := by
    obtain ⟨p, ps, rfl⟩ := List.exists_cons_of_ne_nil h.ne_nil
    have gap : p.gap = [' '] := h.first p rfl
    rw [List.flatMap_cons, Piece.text, gap]
    exact clear_cons fun kind => TokenKind.endsBefore_of_isSpace rfl kind
  laid {qs rest} hqs hclear := by
    have spelled := h.spelled
    have apart := h.apart
    clear h
    induction ps with
    | nil => exact hqs
    | cons p ps ih =>
      have further := fun q hq => spelled q (List.mem_cons_of_mem p hq)
      rw [List.flatMap_cons, List.append_assoc]
      exact .token (spelled p List.mem_cons_self) (Piece.endsAt further apart (hclear p.kind))
        (ih further apart.of_cons)

theorem of_piece {p : Piece} (h : p.IsSpelled) (hgap : p.gap = blank) : Spaced [p] :=
  .of_neat (hgap ▸ .one h)

theorem keyword (k : Keyword) (h : Spaced ps) : Spaced (.keyword blank k :: ps) :=
  cons (of_piece (Piece.isSpelled_keyword isBlank_blank k) rfl) h

theorem symbol (s : Symbol) (h : Spaced ps) : Spaced (.symbol blank s :: ps) :=
  cons (of_piece (Piece.isSpelled_symbol isBlank_blank s) rfl) h

theorem name {name : Name} (hname : name.IsMember) (h : Spaced ps) :
    Spaced (.name blank name :: ps) :=
  cons (of_piece (Piece.isSpelled_name isBlank_blank hname) rfl) h

theorem expr {e : Expr} (he : e.IsWritable) (h : Spaced ps) : Spaced (e.pieces blank ++ ps) :=
  (of_neat (Expr.neat_pieces e isBlank_blank he)).append h

end Spaced

/-! ## Separators -/

/-- What joins statements. -/
inductive Joint where
  | line | colon
  /-- The end of a code region, and immediately behind it the start of the next. -/
  | reopen

/-- The pieces of a separator. -/
def Joint.pieces : Joint → List Piece
  | line => [⟨[], ['\n'], .lineBreak⟩]
  | colon => [.symbol [] .colon]
  | reopen => [⟨[], ['%', '>'], .closeCode⟩, ⟨[], ['<', '%'], .openCode⟩]

/-- Every token ends before the first character of a separator. -/
theorem TokenKind.endsBefore_joint {c : Char} (h : c ∈ ['\n', ':', '%']) (kind : TokenKind) :
    kind.endsBefore c = true := by
  simp only [List.mem_cons, List.not_mem_nil, or_false] at h
  obtain rfl | rfl | rfl := h <;>
    cases kind with
    | symbol s => cases s <;> rfl
    | _ => rfl

theorem Joint.spaced (joint : Joint) : Spaced joint.pieces := by
  have fixed {chars : List Char} {kind : TokenKind} :
      Piece.IsFixed ⟨[], chars, kind⟩ kind chars := ⟨nofun, rfl, rfl⟩
  cases joint with
  | line =>
    exact ⟨fun _ => clear_cons (TokenKind.endsBefore_joint (by decide)), fun h _ => .line fixed h⟩
  | colon =>
    exact ⟨fun _ => clear_cons (TokenKind.endsBefore_joint (by decide)), fun h hclear =>
      .token (Piece.isSpelled_symbol isBlank_nil .colon) (hclear _) h⟩
  | reopen =>
    exact ⟨fun _ => clear_cons (TokenKind.endsBefore_joint (by decide)), fun h hclear =>
      .close fixed (.opening fixed rfl hclear.head?_ne h)⟩

/-- The pieces of separators in a row. -/
def runPieces (joints : List Joint) : List Piece := joints.flatMap Joint.pieces

theorem isRun_runPieces {joints : List Joint} (h : joints ≠ []) : IsRun (runPieces joints) where
  ne_nil := by
    obtain ⟨joint, joints, rfl⟩ := List.exists_cons_of_ne_nil h
    cases joint <;> exact List.cons_ne_nil _ _
  joints p hp := by
    obtain ⟨joint, -, hp⟩ := List.mem_flatMap.mp hp
    cases joint with
    | line | colon =>
      obtain rfl := List.mem_singleton.mp hp
      trivial
    | reopen =>
      obtain rfl | hp := List.mem_cons.mp hp
      · trivial
      · obtain rfl := List.mem_singleton.mp hp
        trivial

theorem spaced_runPieces (joints : List Joint) : Spaced (runPieces joints) := by
  induction joints with
  | nil => exact .nil
  | cons joint joints ih => exact joint.spaced.append ih

end

open Parse (Separated)

/-! ## What can be written -/

/-- The expression is a name or a member of the `with` object, and behind it members and arguments. -/
def Expr.IsChain : Expr → Prop
  | .var .. | .withMember .. => True
  | .member _ object _ => object.IsChain
  | .call _ callee _ => callee.IsChain
  | _ => False

/-- The bound of an array reads back from its digits. -/
def Number.IsBound (n : Nat) : Prop :=
  ∃ d, Number.Decimal.ofNumeral? (Number.digits n) = some d ∧ Parse.bound? d.toFloat = some n

namespace Stmt

/-- A variable in a declaration with an access. -/
inductive IsVariable (access : Access) : Stmt → Prop
  | intro {s name bounds} (hname : name.IsVariable)
      (hbounds : ∀ ns, bounds = some ns → ∀ n ∈ ns, Number.IsBound n) :
      IsVariable access (.dim s name bounds access)

/-- A constant. -/
inductive IsConstant : Stmt → Prop
  | intro {s name value} (hname : name.IsVariable) (hvalue : Literal.IsWritable value) :
      IsConstant (.const s name value)

/-- An array with new bounds. -/
inductive IsResized (preserve : Bool) : Stmt → Prop
  | intro {s name bounds} (hname : name.IsVariable) (some_bound : bounds ≠ [])
      (hbounds : ∀ e ∈ bounds, Expr.IsWritable e) : IsResized preserve (.redim s name bounds preserve)

/-- The first name of a declaration of variables or arrays. -/
def firstName? : List Stmt → Option Name
  | .dim _ name .. :: _ | .redim _ name .. :: _ => some name
  | _ => none

/-- The declarations do not start with a certain name. -/
def DeclaresOther (spelling : String) (body : List Stmt) : Prop :=
  ∀ name, firstName? body = some name → name.isSpelled spelling = false

/-- What one word declares: variables, several constants, or arrays with new bounds.  Behind an
access or `redim` the first name is not the mark that may stand there. -/
inductive IsGroup : List Stmt → Prop
  | declared {access body} (some_variable : body ≠ []) (h : ∀ stmt ∈ body, IsVariable access stmt)
      (other : access = .isPrivate → DeclaresOther "default" body) : IsGroup body
  | constants {body} (several : 2 ≤ body.length) (h : ∀ stmt ∈ body, IsConstant stmt) : IsGroup body
  | arrays {preserve body} (some_array : body ≠ []) (h : ∀ stmt ∈ body, IsResized preserve stmt)
      (other : preserve = false → DeclaresOther "preserve" body) : IsGroup body

/-- The statement is one that a class may have as a member. -/
def IsMember : Stmt → Prop
  | .block _ (.redim .. :: _) => False
  | .block .. | .const .. | .procedure .. | .property .. => True
  | _ => False

end Stmt

mutual

/-- The statement is one that can be read where `around` encloses it, and all its names and literals
can be written. -/
def Stmt.IsWritable (around : Enclosing) : Stmt → Prop
  | .block _ body => Stmt.IsGroup body
  | .assign _ target value => target.IsChain ∧ target.IsWritable ∧ value.IsWritable
  | .call _ (.call s callee args) =>
    (Expr.call s callee args).IsChain ∧ (Expr.call s callee args).IsWritable
  | .const s name value => Stmt.IsConstant (.const s name value)
  | .procedure _ decl => around.inProcedure = false ∧ decl.IsWritable
  | .property _ _ decl _ => around.inClass = true ∧ decl.kind = .function ∧ decl.IsWritable
  | .classDecl _ name members => around.inProcedure = false ∧ name.IsVariable ∧
    Stmt.AreWritable { around with inClass := true } members ∧ ∀ stmt ∈ members, stmt.IsMember
  | .branch _ cond thenBody elseBody =>
    cond.IsWritable ∧ Stmt.AreWritable around thenBody ∧ Stmt.AreWritable around elseBody
  | .loop _ cond body _ _ => cond.IsWritable ∧ Stmt.AreWritable around body
  | .count _ var first last step body => var.IsVariable ∧ first.IsWritable ∧ last.IsWritable ∧
    step.IsWritable ∧ Stmt.AreWritable around body
  | .forEach _ var collection body =>
    var.IsVariable ∧ collection.IsWritable ∧ Stmt.AreWritable around body
  | .select _ subject cases => subject.IsWritable ∧ Stmt.AreWritableCases around cases
  | .withObject _ object body => object.IsWritable ∧ Stmt.AreWritable around body
  | .exit .. | .onError .. | .optionExplicit .. => True
  | _ => False

/-- All statements can be read and written. -/
def Stmt.AreWritable (around : Enclosing) : List Stmt → Prop
  | [] => True
  | stmt :: rest => stmt.IsWritable around ∧ Stmt.AreWritable around rest

/-- All cases can be read and written. -/
def Stmt.AreWritableCases (around : Enclosing) : List Case → Prop
  | [] => True
  | found :: rest => found.IsWritable around ∧ Stmt.AreWritableCases around rest

/-- The case can be read and written; only `case else` has no conditions. -/
def Case.IsWritable (around : Enclosing) : Case → Prop
  | .mk none body => Stmt.AreWritable around body
  | .mk (some conditions) body =>
    conditions ≠ [] ∧ (∀ e ∈ conditions, e.IsWritable) ∧ Stmt.AreWritable around body

/-- The procedure can be read and written. -/
def Procedure.IsWritable : Procedure → Prop
  | .mk name _ params body _ => name.IsVariable ∧ (∀ param ∈ params, param.name.IsVariable) ∧
    Stmt.AreWritable ⟨false, true⟩ body

end

/-! ## The printer -/

/-- A word behind a blank that is not reserved. -/
def Piece.word (spelling : String) : Piece := .name blank (.ofString spelling)

/-- Lists of pieces with commas in between. -/
def commaPieces : List (List Piece) → List Piece
  | [] => []
  | [ps] => ps
  | ps :: rest => ps ++ .symbol blank .comma :: commaPieces rest

/-- Pieces in parentheses, with blanks. -/
def spacedParens (inner : List Piece) : List Piece :=
  .symbol blank .lparen :: (inner ++ [.symbol blank .rparen])

/-- The words at the end of a block. -/
def closingPieces (word : Keyword) : List Piece :=
  [.keyword blank .endWord, .keyword blank word]

/-- The pieces of the bounds behind a declared name. -/
def boundsPieces : Option (List Nat) → List Piece
  | none => []
  | some bounds =>
    spacedParens (commaPieces (bounds.map fun n => [.numeral blank (Number.digits n)]))

/-- The pieces of a parameter. -/
def Param.pieces (param : Param) : List Piece :=
  [.keyword blank (if param.byRef then .byRefWord else .byValWord), .name blank param.name]

/-- The pieces of an access; what is public needs none. -/
def Access.pieces : Access → List Piece
  | .isPublic => []
  | .isPrivate => [.keyword blank .privateWord]

/-- The pieces in front of a property. -/
def modifierPieces (access : Access) (isDefault : Bool) : List Piece :=
  if isDefault then [.keyword blank access.keyword, .word "default"] else access.pieces

/-- The word for a form of property. -/
def PropertyForm.piece : PropertyForm → Piece
  | .get => .word "get"
  | .assign => .word "let"
  | .set => .keyword blank .setWord

/-- The word for the condition of a loop. -/
def conditionWord (untilTrue : Bool) : Keyword := if untilTrue then .untilWord else .whileWord

namespace Stmt

/-- The pieces of a variable, a constant or an array behind the word that declares it. -/
def itemPieces : Stmt → List Piece
  | .dim _ name bounds _ => .name blank name :: boundsPieces bounds
  | .const _ name value => .name blank name :: .symbol blank .eq :: value.pieces blank
  | .redim _ name bounds _ =>
    .name blank name :: spacedParens (commaPieces (bounds.map fun e => e.pieces blank))
  | _ => []

/-- The words in front of what a group declares. -/
def groupWords : List Stmt → List Piece
  | .dim _ _ _ .isPublic :: _ => [.keyword blank .dimWord]
  | .dim _ _ _ .isPrivate :: _ => [.keyword blank .privateWord]
  | .redim _ _ _ false :: _ => [.keyword blank .reDimWord]
  | .redim _ _ _ true :: _ => [.keyword blank .reDimWord, .word "preserve"]
  | _ => [.keyword blank .constWord]

end Stmt

mutual

/-- The pieces of a statement, with a run of separators at every join. -/
def Stmt.pieces (run : List Piece) : Stmt → List Piece
  | .block _ body => Stmt.groupWords body ++ commaPieces (body.map Stmt.itemPieces)
  | .assign _ target value => target.pieces blank ++ .symbol blank .eq :: value.pieces blank
  | .call _ call => .keyword blank .callWord :: call.pieces blank
  | .const s name value => .keyword blank .constWord :: Stmt.itemPieces (.const s name value)
  | .procedure _ decl =>
    decl.access.pieces ++ .keyword blank decl.kind.keyword :: decl.pieces run decl.kind.keyword
  | .property _ form decl isDefault => modifierPieces decl.access isDefault ++
    .keyword blank .propertyWord :: form.piece :: decl.pieces run .propertyWord
  | .classDecl _ name members => .keyword blank .classWord :: .name blank name ::
    (run ++ (Stmt.linePieces run members ++ closingPieces .classWord))
  | .branch _ cond thenBody [] => .keyword blank .ifWord :: (cond.pieces blank ++
    .keyword blank .thenWord :: (run ++ Stmt.linePieces run thenBody ++ ([] ++ closingPieces .ifWord)))
  | .branch _ cond thenBody elseBody => .keyword blank .ifWord :: (cond.pieces blank ++
    .keyword blank .thenWord :: (run ++ Stmt.linePieces run thenBody ++
      (.keyword blank .elseWord :: (run ++ Stmt.linePieces run elseBody) ++ closingPieces .ifWord)))
  | .loop _ cond body untilTrue false => .keyword blank .doWord ::
    .keyword blank (conditionWord untilTrue) :: (cond.pieces blank ++
      (run ++ Stmt.linePieces run body ++ [.keyword blank .loopWord]))
  | .loop _ cond body untilTrue true => .keyword blank .doWord ::
    (run ++ Stmt.linePieces run body ++ .keyword blank .loopWord ::
      .keyword blank (conditionWord untilTrue) :: cond.pieces blank)
  | .count _ var first last step body => .keyword blank .forWord :: .name blank var ::
    .symbol blank .eq :: (first.pieces blank ++ .keyword blank .toWord :: (last.pieces blank ++
      .word "step" :: (step.pieces blank ++
        (run ++ Stmt.linePieces run body ++ [.keyword blank .nextWord]))))
  | .forEach _ var collection body => .keyword blank .forWord :: .keyword blank .eachWord ::
    .name blank var :: .word "in" :: (collection.pieces blank ++
      (run ++ Stmt.linePieces run body ++ [.keyword blank .nextWord]))
  | .select _ subject cases => .keyword blank .selectWord :: .keyword blank .caseWord ::
    (subject.pieces blank ++ (run ++ (Stmt.casePieces run cases ++ closingPieces .selectWord)))
  | .withObject _ object body => .keyword blank .withWord :: (object.pieces blank ++
    (run ++ Stmt.linePieces run body ++ closingPieces .withWord))
  | .exit _ target => [.keyword blank .exitWord, .keyword blank target.keyword]
  | .optionExplicit _ on => [.keyword blank .optionWord, .word "explicit",
    .word (if on then "on" else "off")]
  | .onError _ .resumeNext => [.word "on", .word "error", .word "resume", .keyword blank .nextWord]
  | .onError _ .gotoZero => [.word "on", .word "error", .word "goto", .numeral blank ['0']]
  | _ => []

/-- The pieces of statements, with separators behind each of them. -/
def Stmt.linePieces (run : List Piece) : List Stmt → List Piece
  | [] => []
  | stmt :: rest => stmt.pieces run ++ (run ++ Stmt.linePieces run rest)

/-- The pieces of the cases of a selection. -/
def Stmt.casePieces (run : List Piece) : List Case → List Piece
  | [] => []
  | found :: rest => .keyword blank .caseWord :: (found.pieces run ++ Stmt.casePieces run rest)

/-- The pieces of a case behind `case`. -/
def Case.pieces (run : List Piece) : Case → List Piece
  | .mk none body => .keyword blank .elseWord :: (run ++ Stmt.linePieces run body)
  | .mk (some conditions) body =>
    commaPieces (conditions.map fun e => e.pieces blank) ++ (run ++ Stmt.linePieces run body)

/-- The pieces of a procedure from its name on. -/
def Procedure.pieces (run : List Piece) (word : Keyword) : Procedure → List Piece
  | .mk name _ params body _ => .name blank name ::
    (spacedParens (commaPieces (params.map Param.pieces)) ++
      (run ++ Stmt.linePieces run body ++ closingPieces word))

end

end PageScript
