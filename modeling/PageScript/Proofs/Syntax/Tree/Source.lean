import PageScript.Proofs.Syntax.Tree.Statements
import PageScript.Proofs.Token.Tiling

/-!
# Proofs/Syntax/Tree/Source — the trees of sources

The tokens of a source stand on it one behind another, so what the readers yield from tokens in order
they yield from every source that can be read: its statements stand where they belong
(`Stmt.wellFormed_of_program`), and all spans of its tree nest (`reading_nests`).
-/

namespace PageScript

/-! ## Tokens -/

theorem Span.min_limit_le {offset further : Nat} (h : offset ≤ further) :
    min offset limit ≤ min further limit := by
  omega

/-- Tokens laid out over a source stand one behind another, as far as spans can record it. -/
theorem Laid.ordered {p : Place} {chars : List Char} {tiles : List Tile} (h : Laid p chars tiles) :
    Token.Ordered (p.offset + utf8Length chars) (min p.offset Span.limit)
      (tiles.map Tile.token) := by
  induction h with
  | stop p =>
    have le : min p.offset Span.limit ≤ p.offset + utf8Length [] :=
      Nat.le_trans (Nat.min_le_left _ _) (Nat.le_add_right _ _)
    exact .cons (Nat.le_refl _) (Nat.le_refl _) (.nil le)
  | @layout p piece rest _ _ _ _ _ ih =>
    rw [utf8Length_append, ← Nat.add_assoc]
    exact ih.mono (Span.min_limit_le (Nat.le_add_right _ _))
  | @tile p kind taken rest _ _ _ _ ih =>
    rw [utf8Length_append, ← Nat.add_assoc]
    exact .cons (Nat.le_refl _) (Span.min_limit_le (Nat.le_add_right _ _)) ih

theorem Cursor.sound_start (region : Region) (source : String) :
    (Cursor.start (tokensOf region source)).Sound source.utf8ByteSize where
  order := Nat.le_refl _
  rest := by
    have ordered := (laid_tilesFrom (.start region) source.toList).ordered
    rw [map_token_tilesFrom, utf8Length_toList] at ordered
    simpa [Place.start, tokensOf, Cursor.start, Span.origin] using ordered

/-! ## Statements -/

/-- The statements of a source fill it, each of the form that belongs where it stands. -/
theorem fill_of_program {region : Region} {source : String} {body : List Stmt}
    (h : programOf? region source = .ok body) :
    Stmt.Fill ⟨false, false⟩ 0 source.utf8ByteSize body := by
  obtain ⟨d, keeps, row⟩ :=
    (Parse.yields_program (Cursor.sound_start region source)).exists_of_first h
  exact (Stmt.fill_of_row row).mono (Nat.zero_le _) keeps.sound.stop_le

/-- **Parsed programs are well formed.**  Whatever the source and the region that it starts in. -/
theorem Stmt.wellFormed_of_program {region : Region} {source : String} {body : List Stmt}
    (h : programOf? region source = .ok body) : WellFormed body :=
  wellFormed_of_formed fun stmt mem => ((fill_of_program h).each stmt mem).formed

theorem Stmt.wellFormed_of_program_class : ∃ body,
    programOf? .code "class C\nprivate a\nproperty get P\nend property\nend class\nredim b(1)" =
      .ok body ∧ WellFormed body := by
  have parses : (programOf? .code
      "class C\nprivate a\nproperty get P\nend property\nend class\nredim b(1)").isOk = true := by
    decide +kernel
  cases h : programOf? .code _ with
  | error => exact nomatch h ▸ parses
  | ok body => exact ⟨body, rfl, wellFormed_of_program h⟩

/-! ## Spans -/

/-- An expression is part of another one, at any depth. -/
inductive Expr.Contains (whole : Expr) : Expr → Prop
  | whole : Contains whole whole
  | part {e part : Expr} (contains : Contains whole e) (mem : part ∈ e.parts) : Contains whole part

theorem Expr.Lies.contains {lo hi : Nat} {whole e : Expr} (h : whole.Lies lo hi)
    (contains : whole.Contains e) : e.Lies lo hi := by
  induction contains with
  | whole => exact h
  | part _ mem ih => exact (ih.inside _ mem).mono ih.here.start ih.here.stop

theorem Stmt.Occurs.lies {lo hi : Nat} {program : List Stmt} {holder : Option Stmt} {stmt : Stmt}
    (occurs : Occurs program holder stmt) (h : ∀ stmt ∈ program, stmt.Lies lo hi) :
    stmt.Lies lo hi := by
  induction occurs with
  | top mem => exact h _ mem
  | inside _ body_mem mem ih => exact (ih.bodies _ body_mem _ mem).mono ih.here.start ih.here.stop

/-- The spans of an expression from a source of `n` bytes nest. -/
structure Expr.Nests (n : Nat) (whole : Expr) : Prop where
  inSource {e : Expr} : whole.Contains e → e.span.Lies 0 n
  inParent {e part : Expr} : whole.Contains e → part ∈ e.parts →
    part.span.Lies e.span.start e.span.stop

/-- The spans of a program from a source of `n` bytes nest, and its statements are in order. -/
structure Stmt.Nests (n : Nat) (program : List Stmt) : Prop where
  inSource {holder : Option Stmt} {stmt : Stmt} : Occurs program holder stmt → stmt.span.Lies 0 n
  inHolder {holder stmt : Stmt} : Occurs program (some holder) stmt →
    stmt.span.Lies holder.span.start holder.span.stop
  exprs {holder : Option Stmt} {stmt : Stmt} {e : Expr} : Occurs program holder stmt →
    e ∈ stmt.exprs → e.span.Lies stmt.span.start stmt.span.stop ∧ e.Nests n
  order : InOrder program
  bodies {holder : Option Stmt} {stmt : Stmt} {body : List Stmt} : Occurs program holder stmt →
    body ∈ stmt.bodies → InOrder body

theorem Expr.Lies.nests {n : Nat} {whole : Expr} (h : whole.Lies 0 n) : whole.Nests n where
  inSource contains := (h.contains contains).here
  inParent contains mem := ((h.contains contains).inside _ mem).here

theorem Stmt.Fill.nests {around : Enclosing} {n : Nat} {program : List Stmt}
    (h : Fill around 0 n program) : Nests n program where
  inSource occurs := (occurs.lies fun stmt mem => (h.each stmt mem).lies).here
  inHolder
    | .inside occurs body_mem mem =>
      ((occurs.lies fun stmt mem => (h.each stmt mem).lies).bodies _ body_mem _ mem).here
  exprs {_ stmt e} occurs mem := by
    have lies := occurs.lies fun stmt mem => (h.each stmt mem).lies
    have inside := lies.exprs e mem
    exact ⟨inside.here, (inside.mono (Nat.zero_le _) lies.here.stop).nests⟩
  order := h.order
  bodies occurs body_mem := (occurs.lies fun stmt mem => (h.each stmt mem).lies).order _ body_mem

theorem lies_of_expression {region : Region} {source : String} {e : Expr}
    (h : expressionOf? region source = .ok e) : e.Lies 0 source.utf8ByteSize := by
  have whole : Parse.Yields (do
      let e ← Expr.parse
      if (← Parse.kind).isEnd then pure e else Parse.expected "end of expression")
      (.start (tokensOf region source)) fun e _ => e.Lies 0 source.utf8ByteSize :=
    (Expr.reads_parse (Cursor.sound_start region source)).bind fun _ _ ⟨passes, lies⟩ =>
      Parse.yields_kind (.ite (fun _ => Parse.yields_pure (lies.mono (Nat.zero_le _)
        passes.sound.stop_le)) fun _ => Parse.yields_expected _)
  obtain ⟨_, lies⟩ := whole.exists_of_first h
  exact lies

/-- **Spans nest**, whatever the source of a program or an expression and the region that it starts
in. -/
theorem reading_nests (region : Region) (source : String) :
    (∀ body, programOf? region source = .ok body → Stmt.Nests source.utf8ByteSize body) ∧
      ∀ e, expressionOf? region source = .ok e → e.Nests source.utf8ByteSize :=
  ⟨fun _ h => (fill_of_program h).nests, fun _ h => (lies_of_expression h).nests⟩

theorem reading_nests_arguments :
    (∃ body, programOf? .markup "a<% if x then y (1), 2 else z = (3) %><%= w %>" = .ok body ∧
      Stmt.Nests 46 body) ∧
    ∃ e, expressionOf? .code "a + (b.c(1))" = .ok e ∧ e.Nests 12 := by
  have program : (programOf? .markup
      "a<% if x then y (1), 2 else z = (3) %><%= w %>").isOk = true := by decide +kernel
  have expression : (expressionOf? .code "a + (b.c(1))").isOk = true := by decide +kernel
  constructor
  · cases h : programOf? .markup _ with
    | error => exact nomatch h ▸ program
    | ok body => exact ⟨body, rfl, (reading_nests _ _).1 body h⟩
  · cases h : expressionOf? .code _ with
    | error => exact nomatch h ▸ expression
    | ok e => exact ⟨e, rfl, (reading_nests _ _).2 e h⟩

end PageScript
