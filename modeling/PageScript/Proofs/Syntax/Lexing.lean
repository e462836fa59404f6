import PageScript.Proofs.Syntax.Reading
import PageScript.Proofs.Token.Pieces
import PageScript.Proofs.Token.Spelling

/-!
# Proofs/Syntax/Lexing — the tokens of a written text

Pieces are laid out over the code regions of a text (`Layout`), each up to where its token ends: besides
the spellings of tokens there are line breaks and the delimiters of regions, and between a delimiter
that closes a region and the one that opens the next there is nothing.  A single line is such a layout
if no two neighbours run into each other (`IsLaidOut`): between them is a blank, or the first token
ends before the second one.  A text laid out from pieces is cut into one token for each piece
(`Layout.tokensFrom`, `IsLaidOut.tokensOf`).  The step is one piece (`Piece.Steps`), and the place
behind it is again one where a token has just ended, which is what decides whether the next token
touches it.
-/

namespace PageScript

variable {p q : Piece} {ps : List Piece} {rest tail : List Char} {place : Place}

/-- The characters of a piece. -/
def Piece.text (p : Piece) : List Char := p.gap ++ p.chars

/-- The piece is blanks and a spelling of its kind. -/
structure Piece.IsSpelled (p : Piece) : Prop where
  blank : ∀ c ∈ p.gap, Lexeme.isSpace c = true
  spelled : p.kind.Spelled p.chars

/-- The second piece does not run into the first one. -/
def Piece.Apart (p q : Piece) : Prop := q.gap ≠ [] ∨ p.kind.EndsAt q.chars

/-- The text is pieces one behind the other, and blanks. -/
structure IsLaidOut (ps : List Piece) (text : String) : Prop where
  spelled : ∀ p ∈ ps, p.IsSpelled
  apart : ps.IsChain Piece.Apart
  text : ∃ tail, (∀ c ∈ tail, Lexeme.isSpace c = true) ∧
    text.toList = ps.flatMap Piece.text ++ tail

/-- Where a piece stands, behind blanks, and what its characters are. -/
structure Piece.IsFixed (p : Piece) (kind : TokenKind) (chars : List Char) : Prop where
  blank : ∀ c ∈ p.gap, Lexeme.isSpace c = true
  kind : p.kind = kind
  chars : p.chars = chars

/-- Characters from a place in a region on: pieces one behind the other, each up to where its token
ends. -/
inductive Layout : Region → List Piece → List Char → Prop
  | blanks {chars} (h : ∀ c ∈ chars, Lexeme.isSpace c = true) : Layout .code [] chars
  | outside : Layout .markup [] []
  | token {q qs chars} (h : q.IsSpelled) (hend : q.kind.EndsAt chars)
      (further : Layout .code qs chars) : Layout .code (q :: qs) (q.text ++ chars)
  | line {q qs chars} (h : q.IsFixed .lineBreak ['\n']) (further : Layout .code qs chars) :
      Layout .code (q :: qs) (q.text ++ chars)
  | close {q qs chars} (h : q.IsFixed .closeCode ['%', '>']) (further : Layout .markup qs chars) :
      Layout .code (q :: qs) (q.text ++ chars)
  /-- An equals sign would make it the delimiter of a printed expression. -/
  | opening {q qs chars} (h : q.IsFixed .openCode ['<', '%']) (hgap : q.gap = [])
      (other : chars.head? ≠ some '=') (further : Layout .code qs chars) :
      Layout .markup (q :: qs) (q.text ++ chars)

/-! ## Where a token ends -/

/-- Every token ends before a blank. -/
theorem TokenKind.endsBefore_of_isSpace {c : Char} (h : Lexeme.isSpace c = true)
    (kind : TokenKind) : kind.endsBefore c = true := by
  simp only [Lexeme.isSpace, Bool.or_eq_true, beq_iff_eq] at h
  obtain ((rfl | rfl) | rfl) | rfl := h <;>
    cases kind with
    | symbol s => cases s <;> rfl
    | _ => rfl

theorem TokenKind.endsAt_blank {kind : TokenKind} (h : ∀ c ∈ tail, Lexeme.isSpace c = true) :
    kind.EndsAt tail :=
  fun _ hc => endsBefore_of_isSpace (h _ (List.mem_of_head? hc)) kind

theorem TokenKind.Spelled.ne_nil {kind : TokenKind} {chars : List Char} (h : kind.Spelled chars) :
    chars ≠ [] := by
  have nothing : kind.EndsAt [] := nofun
  obtain ⟨c, cs, rfl, -⟩ := h.inCode nothing
  exact List.cons_ne_nil c cs

/-- A piece ends before the pieces behind it. -/
theorem Piece.endsAt (hspelled : ∀ q ∈ ps, q.IsSpelled) (hapart : (p :: ps).IsChain Piece.Apart)
    (htail : p.kind.EndsAt tail) : p.kind.EndsAt (ps.flatMap Piece.text ++ tail) := by
  cases ps with
  | nil => exact htail
  | cons q ps =>
    have hq := hspelled q List.mem_cons_self
    have first := (List.isChain_cons_cons.mp hapart).1
    rw [List.flatMap_cons, Piece.text, List.append_assoc, List.append_assoc]
    cases hgap : q.gap with
    | nil =>
      -- Without a blank the two are neighbours, and only `Apart` keeps them separate.
      obtain hne | hend := first
      · exact absurd hgap hne
      · obtain ⟨c, cs, hcs⟩ := List.exists_cons_of_ne_nil hq.spelled.ne_nil
        rw [hcs] at hend ⊢
        exact hend
    | cons c gap =>
      rintro _ ⟨⟩
      exact TokenKind.endsBefore_of_isSpace (hq.blank c (hgap ▸ List.mem_cons_self)) _

/-! ## Cutting a text into tokens -/

theorem regionAfter_of_spelled {kind : TokenKind} {chars : List Char} (h : kind.Spelled chars) :
    place.regionAfter kind = place.region := by
  cases h with
  | @word chars _ =>
    rw [TokenKind.ofWord]
    cases Keyword.ofSpelling? (foldCase (String.ofList chars)) <;> rfl
  | _ => rfl

/-! ## One piece, one token -/

/-- A place where a token has just ended, going by what is recorded of it, in whatever region. -/
structure Place.Touches (place : Place) : Prop where
  lastStop : place.lastStop = some (min place.offset Span.limit)
  spaced : place.spaced = false

/-- The first characters are a token of a piece, behind which its region goes on. -/
def Piece.Steps (p : Piece) (place : Place) (region : Region) (rest : List Char) : Prop :=
  ∃ t place', tokensFrom place (p.text ++ rest) = t :: tokensFrom place' rest ∧
    place'.region = region ∧ place'.Touches ∧ t.kind = p.kind ∧ (place.Touches → p.Gives t)

/-- A piece is one token if its characters are, wherever the blanks have led to. -/
theorem Piece.steps_of_lexeme {c : Char} {cs : List Char} {region : Region}
    (hchars : p.chars = c :: cs)
    (moved : tokensFrom place (p.gap ++ (p.chars ++ rest)) =
      tokensFrom (place.past p.gap) (p.chars ++ rest))
    (read : (place.past p.gap).lexeme c (cs ++ rest) = (.token p.kind, cs.length))
    (after : place.regionAfter p.kind = region) : p.Steps place region rest := by
  let stop := (place.past p.gap).offset + c.utf8Size + utf8Length cs
  refine ⟨(place.past p.gap).token p.kind stop, ⟨region, stop, some (min stop Span.limit), false⟩,
    ?_, rfl, ⟨rfl, rfl⟩, rfl, fun h => ⟨rfl, fun hgap => ?_⟩⟩
  · rw [Piece.text, List.append_assoc, moved, hchars, List.cons_append, tokensFrom_cons, read]
    dsimp only
    rw [List.take_left, List.drop_left, Place.after, ← after]
    rfl
  · change (!place.spaced &&
      place.lastStop == some (min (place.offset + utf8Length p.gap) Span.limit)) = true
    rw [hgap, h.spaced, h.lastStop]
    exact beq_self_eq_true _

theorem Piece.steps_of_spelled (h : p.IsSpelled) (hend : p.kind.EndsAt rest)
    (hplace : place.region = .code) : p.Steps place .code rest := by
  obtain ⟨c, cs, hchars, read⟩ := h.spelled.inCode hend
  refine steps_of_lexeme hchars (tokensFrom_blanks _ hplace h.blank) ?_
    ((regionAfter_of_spelled h.spelled).trans hplace)
  rw [Place.lexeme_code (p := place.past p.gap) hplace, read]

theorem Piece.steps_of_line (h : p.IsFixed .lineBreak ['\n']) (hplace : place.region = .code) :
    p.Steps place .code rest := by
  refine steps_of_lexeme h.chars (tokensFrom_blanks _ hplace h.blank) ?_ (h.kind ▸ hplace)
  rw [Place.lexeme_code (p := place.past p.gap) hplace, h.kind]
  rfl

theorem Piece.steps_of_close (h : p.IsFixed .closeCode ['%', '>']) (hplace : place.region = .code) :
    p.Steps place .markup rest := by
  refine steps_of_lexeme h.chars (tokensFrom_blanks _ hplace h.blank) ?_ (h.kind ▸ rfl)
  rw [Place.lexeme_code (p := place.past p.gap) hplace, h.kind]
  rfl

theorem Piece.steps_of_opening (h : p.IsFixed .openCode ['<', '%']) (hgap : p.gap = [])
    (other : rest.head? ≠ some '=') (hplace : place.region = .markup) :
    p.Steps place .code rest := by
  refine steps_of_lexeme h.chars (by rw [hgap]; rfl) ?_ (h.kind ▸ rfl)
  have interrupts : Lexeme.interruption? ('<' :: '%' :: rest) = some (.openCode, 2) := by
    cases rest with
    | nil => rfl
    | cons d rest =>
      have hd : d ≠ '=' := fun h => other (congrArg some h)
      simp [Lexeme.interruption?, hd]
  rw [Place.lexeme_markup (p := place.past p.gap) hplace, h.kind]
  change (Lexeme.token (Lexeme.inMarkup '<' ('%' :: rest)).1, _) = _
  rw [List.singleton_append, Lexeme.inMarkup, interrupts]
  rfl

/-- Blanks at the end of a text are no tokens. -/
theorem tokensFrom_tail (htail : ∀ c ∈ tail, Lexeme.isSpace c = true)
    (hplace : place.region = .code) :
    ∃ last, tokensFrom place tail = [last] ∧ last.kind = .endOfPage := by
  have moved := tokensFrom_blanks [] hplace htail
  rw [List.append_nil, tokensFrom_nil] at moved
  exact ⟨(place.past tail).endToken, moved, rfl⟩

/-! ## All pieces -/

/-- **The tokens of a page are those of its pieces**, and the end. -/
theorem Layout.tokensFrom {region : Region} {chars : List Char} (h : Layout region ps chars) :
    ∀ {place : Place}, place.region = region → ∃ ts last, tokensFrom place chars = ts ++ [last] ∧
      Piece.GiveAll ps ts ∧ (place.Touches → List.Forall₂ Piece.Gives ps ts) ∧
      last.kind = .endOfPage := by
  have step {p : Piece} {ps : List Piece} {place : Place} {region : Region} {rest : List Char}
      (hp : p.Steps place region rest)
      (ih : ∀ {place : Place}, place.region = region → ∃ ts last,
        PageScript.tokensFrom place rest = ts ++ [last] ∧ Piece.GiveAll ps ts ∧
        (place.Touches → List.Forall₂ Piece.Gives ps ts) ∧ last.kind = .endOfPage) :
      ∃ ts last, PageScript.tokensFrom place (p.text ++ rest) = ts ++ [last] ∧
        Piece.GiveAll (p :: ps) ts ∧ (place.Touches → List.Forall₂ Piece.Gives (p :: ps) ts) ∧
        last.kind = .endOfPage := by
    obtain ⟨t, place', read, hregion, touches, ht, gives⟩ := hp
    obtain ⟨ts, last, further, -, hts, hlast⟩ := ih hregion
    refine ⟨t :: ts, last, ?_, ⟨t, ts, rfl, ht, hts touches⟩,
      fun h => .cons (gives h) (hts touches), hlast⟩
    rw [read, further]
    rfl
  induction h with
  | blanks h =>
    intro place hplace
    obtain ⟨last, read, hlast⟩ := tokensFrom_tail h hplace
    exact ⟨[], last, read, rfl, fun _ => .nil, hlast⟩
  | outside =>
    intro place _
    exact ⟨[], place.endToken, by rw [tokensFrom_nil]; rfl, rfl, fun _ => .nil, rfl⟩
  | token h hend _ ih => exact fun hplace => step (Piece.steps_of_spelled h hend hplace) ih
  | line h _ ih => exact fun hplace => step (Piece.steps_of_line h hplace) ih
  | close h _ ih => exact fun hplace => step (Piece.steps_of_close h hplace) ih
  | opening h hgap other _ ih =>
    exact fun hplace => step (Piece.steps_of_opening h hgap other hplace) ih

/-- Spelled pieces that do not run into each other are laid out, with blanks behind them. -/
theorem layout_of_apart (hspelled : ∀ p ∈ ps, p.IsSpelled) (hapart : ps.IsChain Piece.Apart)
    (htail : ∀ c ∈ tail, Lexeme.isSpace c = true) :
    Layout .code ps (ps.flatMap Piece.text ++ tail) := by
  induction ps with
  | nil => exact .blanks htail
  | cons p ps ih =>
    have further := fun q hq => hspelled q (List.mem_cons_of_mem p hq)
    rw [List.flatMap_cons, List.append_assoc]
    exact .token (hspelled p List.mem_cons_self)
      (Piece.endsAt further hapart (TokenKind.endsAt_blank htail)) (ih further hapart.of_cons)

/-- **The tokens of a text are those of its pieces**, and the end. -/
theorem IsLaidOut.tokensOf {text : String} (h : IsLaidOut ps text) :
    ∃ ts last, tokensOf .code text = ts ++ [last] ∧ Piece.GiveAll ps ts ∧
      last.kind = .endOfPage := by
  obtain ⟨tail, htail, htext⟩ := h.text
  obtain ⟨ts, last, read, hts, -, hlast⟩ :=
    (layout_of_apart h.spelled h.apart htail).tokensFrom (rfl : (Place.start .code).region = .code)
  refine ⟨ts, last, ?_, hts, hlast⟩
  rw [← htext] at read
  exact read

end PageScript
