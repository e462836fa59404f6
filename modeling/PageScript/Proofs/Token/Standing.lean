import PageScript.Proofs.Token.Tiling

/-!
# Proofs/Token/Standing — the one token that stands on some characters

The reading of a source comes to a place of it (`Place.ComesTo`), and the tokens from there on are the
last ones of the source (`Place.ComesTo.tilesFrom_eq`).  So what stands at such a place is a token of
the source, and the only one on its characters (`isToken_of_comesTo`).
-/

namespace PageScript

variable {p q : Place} {c : Char} {chars rest : List Char}

/-! ## Places of a source -/

/-- The place behind what stands at a place, before `c` and `rest`. -/
def Place.next (p : Place) (c : Char) (rest : List Char) : Place :=
  p.after (p.lexeme c rest).1
    (p.offset + c.utf8Size + utf8Length (rest.take (p.lexeme c rest).2))

/-- Reading on from a place, with certain characters behind it, comes to another place with the last
ones of them behind it. -/
inductive Place.ComesTo : Place → List Char → Place → List Char → Prop
  | here {p : Place} {chars : List Char} : ComesTo p chars p chars
  | step {p q : Place} {c : Char} {rest left : List Char}
      (further : ComesTo (p.next c rest) (rest.drop (p.lexeme c rest).2) q left) :
      ComesTo p (c :: rest) q left

theorem tilesFrom_nil (p : Place) : tilesFrom p [] = [⟨p.offset, [], p.endToken⟩] := by
  rw [tilesFrom, tilesBy]

theorem tilesFrom_cons (p : Place) (c : Char) (rest : List Char) : tilesFrom p (c :: rest) =
    (match (p.lexeme c rest).1 with
      | .token kind => [⟨p.offset, c :: rest.take (p.lexeme c rest).2,
          p.token kind (p.offset + utf8Length (c :: rest.take (p.lexeme c rest).2))⟩]
      | _ => []) ++ tilesFrom (p.next c rest) (rest.drop (p.lexeme c rest).2) := by
  rw [tilesFrom, tilesBy, Place.next, utf8Length, ← Nat.add_assoc, Place.lexeme]
  generalize p.lexemeBy Lexeme.inCode c rest = found
  obtain ⟨lexeme, more⟩ := found
  cases lexeme <;> rfl

theorem Place.next_offset (p : Place) (c : Char) (rest : List Char) : (p.next c rest).offset =
    p.offset + utf8Length (c :: rest.take (p.lexeme c rest).2) := by
  rw [next, utf8Length, ← Nat.add_assoc]
  cases (p.lexeme c rest).1 <;> rfl

/-- No token from a place on ends there, unless nothing is left. -/
theorem lt_stop_of_mem_tilesFrom {t : Tile} (ht : t ∈ tilesFrom p (c :: rest)) : p.offset < t.stop := by
  have taken : 0 < utf8Length (c :: rest.take (p.lexeme c rest).2) := utf8Length_pos (List.cons_ne_nil _ _)
  have further (ht : t ∈ tilesFrom (p.next c rest) (rest.drop (p.lexeme c rest).2)) :
      p.offset < t.stop := by
    have behind := (laid_tilesFrom _ _).offset_le ht
    rw [p.next_offset] at behind
    rw [Tile.stop]
    omega
  rw [tilesFrom_cons] at ht
  cases found : (p.lexeme c rest).1 with
  | token kind =>
    rw [found] at ht
    obtain rfl | ht := List.mem_cons.mp ht
    · exact Nat.lt_add_of_pos_right taken
    · exact further ht
  | _ =>
    rw [found] at ht
    exact further ht

namespace Place.ComesTo

theorem offset_eq (h : p.ComesTo chars q rest) :
    ∃ front, chars = front ++ rest ∧ q.offset = p.offset + utf8Length front := by
  induction h with
  | here => exact ⟨[], rfl, rfl⟩
  | @step p q c rest left _ ih =>
    obtain ⟨front, hrest, hoffset⟩ := ih
    refine ⟨c :: rest.take (p.lexeme c rest).2 ++ front, ?_, ?_⟩
    · rw [List.append_assoc, ← hrest, List.cons_append, List.take_append_drop]
    · rw [hoffset, next_offset, utf8Length_append, Nat.add_assoc]

/-- The tokens behind the place are the last ones. -/
theorem tilesFrom_eq (h : p.ComesTo chars q rest) :
    ∃ before, tilesFrom p chars = before ++ tilesFrom q rest := by
  induction h with
  | here => exact ⟨[], rfl⟩
  | @step p q c rest left _ ih =>
    obtain ⟨before, same⟩ := ih
    rw [tilesFrom_cons, same, ← List.append_assoc]
    exact ⟨_, rfl⟩

/-- The region of the place is the one that its offset is in. -/
theorem regionAt_eq (h : p.ComesTo chars q (c :: rest)) :
    regionAt p.region (tilesFrom p chars) q.offset = q.region := by
  generalize hleft : c :: rest = left at h
  induction h with
  | here =>
    subst hleft
    exact Laid.regionAt_of_lt fun t ht => lt_stop_of_mem_tilesFrom ht
  | @step p q d more left further ih =>
    rw [tilesFrom_cons]
    cases found : (p.lexeme d more).1 with
    | token kind =>
      obtain ⟨front, -, hoffset⟩ := further.offset_eq
      have before : p.offset + utf8Length (d :: more.take (p.lexeme d more).2) ≤ q.offset := by
        rw [hoffset, next_offset]
        exact Nat.le_add_right _ _
      have region : p.region.after kind = (p.next d more).region := by
        rw [next, found, after, p.regionAfter_eq]
      exact (Laid.regionAt_cons before).trans (region ▸ ih hleft)
    | _ =>
      have region : p.region = (p.next d more).region := by rw [next, found, after]
      exact region ▸ ih hleft

end Place.ComesTo

/-! ## Tokens of a source -/

/-- On some characters of a source, which start at an offset, stands one token of a certain kind.  The
tokens in front of it end there, and the ones behind it start where it ends. -/
def IsToken (region : Region) (source : String) (start : Nat) (chars : List Char)
    (kind : TokenKind) : Prop :=
  ∃ before token behind, tilesOf region source = before ++ ⟨start, chars, token⟩ :: behind ∧
    tokensOf region source = before.map Tile.token ++ token :: behind.map Tile.token ∧
    token.kind = kind ∧ token.span = Span.ofRange start (start + utf8Length chars) ∧
    (∀ t ∈ before, t.stop ≤ start) ∧ ∀ t ∈ behind, start + utf8Length chars ≤ t.start

variable {region : Region} {source : String} {kind : TokenKind}

theorem isTiling_tilesOf (region : Region) (source : String) :
    IsTiling region source (tilesOf region source) :=
  isTiling region source (laid_tilesFrom _ _)

theorem map_token_tilesOf (region : Region) (source : String) :
    (tilesOf region source).map Tile.token = tokensOf region source :=
  map_token_tilesFrom _ _

/-- Every token of a source stands on its characters. -/
theorem isToken_of_mem {t : Tile} (ht : t ∈ tilesOf region source) :
    IsToken region source t.start t.chars t.token.kind := by
  obtain ⟨before, behind, split⟩ := List.append_of_mem ht
  have tokens : tokensOf region source = before.map Tile.token ++ t.token :: behind.map Tile.token := by
    rw [← map_token_tilesOf, split, List.map_append, List.map_cons]
  have order := (isTiling_tilesOf region source).order
  rw [split, List.pairwise_append, List.pairwise_cons] at order
  exact ⟨before, t.token, behind, split, tokens, rfl, (isTiling_tilesOf region source).span t ht,
    fun u hu => order.2.2 u hu t List.mem_cons_self, order.2.1.1⟩

/-- What is read at a place that the reading of a source comes to is a token of the source. -/
theorem isToken_of_comesTo {front : List Char} {more : Nat}
    (h : (Place.start region).ComesTo source.toList q (c :: rest))
    (split : source.toList = front ++ c :: rest) (found : q.lexeme c rest = (.token kind, more)) :
    IsToken region source (utf8Length front) (c :: rest.take more) kind := by
  obtain ⟨before, same⟩ := h.tilesFrom_eq
  obtain ⟨front', split', hoffset⟩ := h.offset_eq
  obtain rfl : front' = front := List.append_cancel_right (split'.symm.trans split)
  have offset : q.offset = utf8Length front' := hoffset.trans (Nat.zero_add _)
  have mem : (⟨q.offset, c :: rest.take more, q.token kind (q.offset + utf8Length (c :: rest.take more))⟩ :
      Tile) ∈ tilesOf region source := by
    rw [tilesOf, same, tilesFrom_cons, found]
    exact List.mem_append_right before List.mem_cons_self
  have standing := isToken_of_mem mem
  rwa [offset] at standing

/-- Where a token stands, the reading of the source comes. -/
theorem exists_comesTo_of_mem {chars : List Char} {t : Tile} (ht : t ∈ tilesFrom p chars)
    (inside : t.start < t.stop) : ∃ q c rest, p.ComesTo chars q (c :: rest) ∧
      q.lexeme c rest = (.token t.token.kind, (q.lexeme c rest).2) ∧ q.offset = t.start ∧
      t.chars = c :: rest.take (q.lexeme c rest).2 := by
  induction p, chars using Place.induction_on with
  | stop p =>
    rw [tilesFrom_nil] at ht
    obtain rfl := List.mem_singleton.mp ht
    exact absurd inside (Nat.lt_irrefl _)
  | token p c rest kind more hlexeme ih =>
    rw [tilesFrom_cons, hlexeme] at ht
    obtain rfl | ht := List.mem_cons.mp ht
    · exact ⟨p, c, rest, .here, by rw [hlexeme]; rfl, rfl, by rw [hlexeme]⟩
    · rw [Place.next, hlexeme] at ht
      obtain ⟨q, d, left, comes, found, offset, taken⟩ := ih ht
      refine ⟨q, d, left, .step ?_, found, offset, taken⟩
      rwa [Place.next, hlexeme]
  | layout p c rest lexeme more hlexeme hlayout ih =>
    have further : tilesFrom p (c :: rest) = tilesFrom (p.next c rest) (rest.drop more) := by
      rw [tilesFrom_cons, hlexeme]
      cases lexeme with
      | token kind => exact absurd rfl (hlayout kind)
      | _ => rfl
    rw [further, Place.next, hlexeme] at ht
    obtain ⟨q, d, left, comes, found, offset, taken⟩ := ih ht
    refine ⟨q, d, left, .step ?_, found, offset, taken⟩
    rwa [Place.next, hlexeme]

end PageScript
