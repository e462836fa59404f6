import Mathlib.Data.List.Chain
import PageScript.Proofs.Token.Pieces

/-!
# Proofs/Token/Tiling — the tokens tile their source

`tokensOf` keeps two positions at a time, where it is and where the last token ended, and hands over
between two readers at every delimiter.  `Laid` lays the tokens of a source out over its characters:
each stands where the one before it left off or behind layout of a code region, and the end of the
page is the last.  Every source is laid out so (`exists_laid`), and what it takes to be a tiling
(`IsTiling`) follows, one clause at a time, by induction on the layout.
-/

namespace PageScript

/-- A token over the characters it stands on. -/
structure Tile where
  start : Nat
  chars : List Char
  token : Token

namespace Tile

/-- The offset behind the token. -/
def stop (t : Tile) : Nat := t.start + utf8Length t.chars

/-- The token stands on whole characters of a text that starts at an offset. -/
def StandsIn (t : Tile) (start : Nat) (chars : List Char) : Prop :=
  ∃ before behind, chars = before ++ t.chars ++ behind ∧ t.start = start + utf8Length before

/-- The token stands on the byte at an offset. -/
def Covers (t : Tile) (offset : Nat) : Prop := t.start ≤ offset ∧ offset < t.stop

end Tile

/-- The region that an offset is in: the one behind all tokens that end before it. -/
def regionAt (region : Region) (tiles : List Tile) (offset : Nat) : Region :=
  (tiles.filter fun t => t.stop ≤ offset).foldl (fun r t => r.after t.token.kind) region

/-- The byte at an offset belongs to one piece of layout, on which no token stands. -/
def InLayout (start : Nat) (chars : List Char) (tiles : List Tile) (offset : Nat) : Prop :=
  ∃ before piece behind, chars = before ++ piece ++ behind ∧ IsLayout behind piece ∧
    start + utf8Length before ≤ offset ∧ offset < start + utf8Length (before ++ piece) ∧
    ∀ t ∈ tiles, t.stop ≤ start + utf8Length before ∨ start + utf8Length (before ++ piece) ≤ t.start

/-- The kinds of tokens alternate: in literal text come pieces of text and include directives, and
whatever opens a code region; in a code region tokens of script code, and what closes it.  The end of
the page comes once, at the end. -/
inductive Alternates : Region → List TokenKind → Prop
  | endOfPage {region} : Alternates region [.endOfPage]
  | text {content kinds} : Alternates .markup kinds → Alternates .markup (.text content :: kinds)
  | includeFile {path isVirtual kinds} :
      Alternates .markup kinds → Alternates .markup (.includeFile path isVirtual :: kinds)
  | opener {kind kinds} (h : kind.isOpener = true) :
      Alternates .code kinds → Alternates .markup (kind :: kinds)
  | script {kind kinds} (h : kind.isScript = true) :
      Alternates .code kinds → Alternates .code (kind :: kinds)
  | closeCode {kinds} : Alternates .markup kinds → Alternates .code (.closeCode :: kinds)

/-- The tokens tile a source that starts in a region. -/
structure IsTiling (region : Region) (source : String) (tiles : List Tile) : Prop where
  /-- A token records the bytes it stands on, as far as a span can. -/
  span : ∀ t ∈ tiles, t.token.span = Span.ofRange t.start t.stop
  place : ∀ t ∈ tiles, t.StandsIn 0 source.toList
  order : tiles.Pairwise fun t u => t.stop ≤ u.start
  nonempty : ∀ t ∈ tiles, t.token.kind ≠ .endOfPage → t.start < t.stop
  /-- What no token stands on is layout of a code region. -/
  between : ∀ offset < source.utf8ByteSize, (∀ t ∈ tiles, ¬ t.Covers offset) →
    regionAt region tiles offset = .code ∧ InLayout 0 source.toList tiles offset
  /-- A piece of text is what it stands on, and opens no code region. -/
  text : ∀ t ∈ tiles, ∀ content, t.token.kind = .text content →
    content = String.ofList t.chars ∧ ¬ ['<', '%'] <:+: t.chars
  /-- No two pieces of text are neighbours. -/
  apart : tiles.IsChain fun t u => ¬ (t.token.kind.isText = true ∧ u.token.kind.isText = true)
  alternates : Alternates region (tiles.map fun t => t.token.kind)
  /-- A token that starts where the one before it ends is marked as adjacent. -/
  touching : ∀ before u t behind, tiles = before ++ u :: t :: behind → t.token.kind ≠ .endOfPage →
    u.stop = t.start → t.token.adjacent = true
  /-- A token marked as adjacent starts where the one before it ends, going by what they record. -/
  recorded : ∀ before t behind, tiles = before ++ t :: behind → t.token.adjacent = true →
    ∃ u, before.getLast? = some u ∧ u.token.span.stop = t.token.span.start

/-- What a region admits alternates with what may stand behind it. -/
theorem Alternates.cons {region : Region} {kind : TokenKind} {kinds : List TokenKind}
    {chars behind : List Char} (hrest : Alternates (region.after kind) kinds)
    (h : region.Admits behind kind chars) : Alternates region (kind :: kinds) := by
  cases h with
  | text => exact .text hrest
  | includeFile => exact .includeFile hrest
  | opener h =>
    have hcode : Region.markup.after kind = .code := by cases kind <;> first | rfl | cases h
    exact .opener h (hcode ▸ hrest)
  | script h =>
    have hcode : Region.code.after kind = .code := by cases kind <;> first | rfl | cases h
    exact .script h (hcode ▸ hrest)
  | closeCode => exact .closeCode hrest

/-- A piece of text reaches to the next interruption of literal text. -/
theorem Region.Admits.text_stop {region : Region} {content : String} {chars behind : List Char}
    (h : region.Admits behind (.text content) chars) :
    region = .markup ∧ (behind = [] ∨ (Lexeme.interruption? behind).isSome = true) := by
  cases h with
  | text _ _ hstop => exact ⟨rfl, hstop⟩
  | opener h => cases h
  | script h => cases h

theorem TokenKind.eq_text_of_isText {kind : TokenKind} (h : kind.isText = true) :
    ∃ content, kind = .text content := by
  cases kind <;> first | exact ⟨_, rfl⟩ | cases h

/-! ## Lengths -/

theorem utf8Length_append (chars more : List Char) :
    utf8Length (chars ++ more) = utf8Length chars + utf8Length more := by
  induction chars with
  | nil => exact (Nat.zero_add _).symm
  | cons c chars ih => rw [List.cons_append, utf8Length, utf8Length, ih, Nat.add_assoc]

theorem utf8ByteSize_ofList (chars : List Char) :
    (String.ofList chars).utf8ByteSize = utf8Length chars := by
  induction chars with
  | nil => rfl
  | cons c chars ih =>
    rw [← List.singleton_append, String.ofList_append, String.utf8ByteSize_append, ih,
      ← String.singleton_eq_ofList, String.utf8ByteSize_singleton, List.singleton_append, utf8Length]

theorem utf8Length_toList (source : String) : utf8Length source.toList = source.utf8ByteSize := by
  rw [← utf8ByteSize_ofList, String.ofList_toList]

theorem utf8Length_pos {chars : List Char} (h : chars ≠ []) : 0 < utf8Length chars := by
  obtain ⟨c, rest, rfl⟩ := List.exists_cons_of_ne_nil h
  exact Nat.lt_of_lt_of_le c.utf8Size_pos (Nat.le_add_right _ _)

theorem IsLayout.ne_nil {behind piece : List Char} (h : IsLayout behind piece) : piece ≠ [] := by
  cases h with
  | blank => exact List.cons_ne_nil _ _
  | @comment mark body hmark =>
    intro hnil
    obtain ⟨rfl, -⟩ := List.append_eq_nil_iff.mp hnil
    cases hmark with
    | word hfold => exact absurd hfold (by decide)
  | continuation => exact List.cons_ne_nil _ _

/-- What stands in a text stands in a longer one. -/
theorem Tile.StandsIn.behind {t : Tile} {start : Nat} {piece rest : List Char}
    (h : t.StandsIn (start + utf8Length piece) rest) : t.StandsIn start (piece ++ rest) := by
  obtain ⟨before, behind, rfl, hstart⟩ := h
  refine ⟨piece ++ before, behind, ?_, ?_⟩
  · rw [List.append_assoc, List.append_assoc, List.append_assoc]
  · rw [hstart, utf8Length_append, Nat.add_assoc]

/-- Layout in a text is layout in a longer one, if the tokens in front end before the text. -/
theorem InLayout.behind {start offset : Nat} {piece rest : List Char} {tiles : List Tile}
    (h : InLayout (start + utf8Length piece) rest tiles offset) (front : List Tile)
    (hfront : ∀ t ∈ front, t.stop ≤ start + utf8Length piece) :
    InLayout start (piece ++ rest) (front ++ tiles) offset := by
  obtain ⟨before, layout, behind, rfl, hlayout, hle, hlt, hclear⟩ := h
  refine ⟨piece ++ before, layout, behind, ?_, hlayout, ?_, ?_, ?_⟩
  · rw [List.append_assoc, List.append_assoc, List.append_assoc]
  · rwa [utf8Length_append, ← Nat.add_assoc]
  · rwa [List.append_assoc, utf8Length_append, ← Nat.add_assoc]
  · rw [utf8Length_append, ← Nat.add_assoc, List.append_assoc, utf8Length_append piece, ← Nat.add_assoc]
    refine List.forall_mem_append.mpr ⟨fun t ht => .inl ?_, hclear⟩
    exact Nat.le_trans (hfront t ht) (Nat.le_add_right _ _)

/-- A token stands inside its source. -/
theorem Tile.StandsIn.stop_le {t : Tile} {start : Nat} {chars : List Char}
    (h : t.StandsIn start chars) : t.stop ≤ start + utf8Length chars := by
  obtain ⟨before, behind, rfl, hstart⟩ := h
  rw [Tile.stop, hstart, utf8Length_append, utf8Length_append]
  omega

/-! ## Laying the tokens out -/

/-- The tokens of the characters from a place on, laid out over them. -/
inductive Laid : Place → List Char → List Tile → Prop
  | stop (p : Place) : Laid p [] [⟨p.offset, [], p.endToken⟩]
  | layout {p : Place} {piece rest : List Char} {tiles : List Tile} (spaced : Bool)
      (hregion : p.region = .code) (h : IsLayout rest piece)
      (hrest : Laid ⟨p.region, p.offset + utf8Length piece, p.lastStop, spaced⟩ rest tiles) :
      Laid p (piece ++ rest) tiles
  | tile {p : Place} {kind : TokenKind} {chars rest : List Char} {tiles : List Tile}
      (hne : chars ≠ []) (h : p.region.Admits rest kind chars)
      (hrest : Laid (p.after (.token kind) (p.offset + utf8Length chars)) rest tiles) :
      Laid p (chars ++ rest)
        (⟨p.offset, chars, p.token kind (p.offset + utf8Length chars)⟩ :: tiles)

/-- The tokens may stand behind several pieces of layout. -/
theorem Laid.pieces {p : Place} {layout rest : List Char} {tiles : List Tile} {spaced : Bool}
    (hregion : p.region = .code) (h : AreLayout rest layout) (hne : layout ≠ [])
    (hrest : Laid ⟨p.region, p.offset + utf8Length layout, p.lastStop, spaced⟩ rest tiles) :
    Laid p (layout ++ rest) tiles := by
  induction h generalizing p with
  | nil => exact absurd rfl hne
  | @cons piece further h hfurther ih =>
    rw [utf8Length_append, ← Nat.add_assoc] at hrest
    rw [List.append_assoc]
    by_cases last : further = []
    · subst last
      exact .layout spaced hregion h hrest
    · exact .layout p.spaced hregion h (ih hregion last hrest)

/-- The tokens from a place on, over the characters that they stand on, where script code is looked at
in some way. -/
def tilesBy (look : Char → List Char → Lexeme × Nat) (p : Place) : List Char → List Tile
  | [] => [⟨p.offset, [], p.endToken⟩]
  | c :: rest =>
    let (lexeme, more) := p.lexemeBy look c rest
    let stop := p.offset + c.utf8Size + utf8Length (rest.take more)
    let further := tilesBy look (p.after lexeme stop) (rest.drop more)
    match lexeme with
    | .token kind => ⟨p.offset, c :: rest.take more, p.token kind stop⟩ :: further
    | _ => further
termination_by chars => chars.length
decreasing_by simp only [List.length_drop, List.length_cons]; omega

/-- The tokens from a place on, over the characters that they stand on. -/
def tilesFrom (p : Place) (chars : List Char) : List Tile := tilesBy Lexeme.inCode p chars

/-- The tokens of a source that starts in a region, over the characters that they stand on. -/
def tilesOf (region : Region) (source : String) : List Tile :=
  tilesFrom (.start region) source.toList

section Looking

variable {look : Char → List Char → Lexeme × Nat}

theorem map_token_tilesBy (p : Place) (chars : List Char) :
    (tilesBy look p chars).map Tile.token = tokensBy look p chars := by
  fun_induction tilesBy look p chars with
  | case1 p => rw [tokensBy, List.map_singleton]
  | case2 p c rest more stop kind hlexeme further ih =>
    rw [tokensBy, hlexeme]
    exact congrArg (p.token kind stop :: ·) ih
  | case3 p c rest lexeme more hlexeme stop further hlayout ih =>
    rw [tokensBy, hlexeme]
    cases lexeme with
    | token kind => exact absurd rfl (hlayout kind)
    | _ => exact ih

/-- **Every source is laid out**, from every place, if looking at script code finds layout or tokens
of it everywhere. -/
theorem laid_tilesBy (sound : ∀ c rest, Lexeme.Finds c rest (look c rest)) (p : Place)
    (chars : List Char) : Laid p chars (tilesBy look p chars) := by
  fun_induction tilesBy look p chars with
  | case1 p => exact .stop p
  | case2 p c rest more stop kind hlexeme further ih =>
    have hstop : stop = p.offset + utf8Length (c :: rest.take more) := Nat.add_assoc ..
    have tile : Laid p (c :: rest.take more ++ rest.drop more) _ :=
      .tile (List.cons_ne_nil _ _) (Place.lexemeBy_token sound hlexeme) (hstop ▸ ih)
    rwa [List.cons_append, List.take_append_drop, ← hstop] at tile
  | case3 p c rest lexeme more hlexeme stop further hlayout ih =>
    obtain ⟨hregion, h⟩ := Place.lexemeBy_layout sound hlexeme hlayout
    have hstop : stop = p.offset + utf8Length (c :: rest.take more) := Nat.add_assoc ..
    have hrest : ∃ spaced, Laid ⟨p.region, stop, p.lastStop, spaced⟩ (rest.drop more) further := by
      cases lexeme with
      | blank => exact ⟨p.spaced, ih⟩
      | remark => exact ⟨true, ih⟩
      | token kind => exact absurd rfl (hlayout kind)
    obtain ⟨spaced, hrest⟩ := hrest
    have layout : Laid p (c :: rest.take more ++ rest.drop more) further :=
      .pieces hregion h (List.cons_ne_nil _ _) (hstop ▸ hrest)
    rwa [List.cons_append, List.take_append_drop] at layout

end Looking

theorem map_token_tilesFrom (p : Place) (chars : List Char) :
    (tilesFrom p chars).map Tile.token = tokensFrom p chars :=
  map_token_tilesBy p chars

theorem laid_tilesFrom (p : Place) (chars : List Char) : Laid p chars (tilesFrom p chars) :=
  laid_tilesBy Lexeme.finds_inCode p chars

namespace Laid

variable {p : Place} {chars : List Char} {tiles : List Tile}

/-! ## Places and order -/

theorem span_eq (h : Laid p chars tiles) : ∀ t ∈ tiles, t.token.span = Span.ofRange t.start t.stop := by
  induction h with
  | stop p => simp [Tile.stop, utf8Length, Place.endToken]
  | layout _ _ _ _ ih => exact ih
  | tile _ _ _ ih => exact List.forall_mem_cons.mpr ⟨rfl, ih⟩

theorem place (h : Laid p chars tiles) : ∀ t ∈ tiles, t.StandsIn p.offset chars := by
  induction h with
  | stop p => exact List.forall_mem_singleton.mpr ⟨[], [], rfl, rfl⟩
  | layout _ _ _ _ ih => exact fun t ht => (ih t ht).behind
  | @tile p _ taken rest _ _ _ _ ih =>
    exact List.forall_mem_cons.mpr ⟨⟨[], rest, rfl, rfl⟩, fun t ht => (ih t ht).behind⟩

/-- No token starts before the place. -/
theorem offset_le (h : Laid p chars tiles) {t : Tile} (ht : t ∈ tiles) : p.offset ≤ t.start := by
  obtain ⟨before, -, -, hstart⟩ := h.place t ht
  exact hstart ▸ Nat.le_add_right _ _

theorem order (h : Laid p chars tiles) : tiles.Pairwise fun t u => t.stop ≤ u.start := by
  induction h with
  | stop p => exact List.pairwise_singleton _ _
  | layout _ _ _ _ ih => exact ih
  | tile _ _ hrest ih => exact List.pairwise_cons.mpr ⟨fun u hu => hrest.offset_le hu, ih⟩

theorem nonempty (h : Laid p chars tiles) :
    ∀ t ∈ tiles, t.token.kind ≠ .endOfPage → t.start < t.stop := by
  induction h with
  | stop p =>
    rintro t ht hkind
    obtain rfl := List.mem_singleton.mp ht
    exact absurd rfl hkind
  | layout _ _ _ _ ih => exact ih
  | tile hne _ _ ih =>
    exact List.forall_mem_cons.mpr ⟨fun _ => Nat.lt_add_of_pos_right (utf8Length_pos hne), ih⟩

/-! ## Kinds -/

theorem alternates (h : Laid p chars tiles) :
    Alternates p.region (tiles.map fun t => t.token.kind) := by
  induction h with
  | stop p => exact .endOfPage
  | layout _ _ _ _ ih => exact ih
  | @tile p kind _ _ _ _ admits _ ih =>
    rw [Place.after, p.regionAfter_eq] at ih
    exact ih.cons admits

theorem text (h : Laid p chars tiles) : ∀ t ∈ tiles, ∀ content, t.token.kind = .text content →
    content = String.ofList t.chars ∧ ¬ ['<', '%'] <:+: t.chars := by
  induction h with
  | stop p => exact List.forall_mem_singleton.mpr nofun
  | layout _ _ _ _ ih => exact ih
  | @tile p kind taken rest tiles _ admits _ ih =>
    refine List.forall_mem_cons.mpr ⟨fun content hkind => ?_, ih⟩
    obtain rfl : kind = .text content := hkind
    generalize p.region = region at admits
    cases admits with
    | text hfree => exact ⟨rfl, hfree⟩
    | opener h => cases h
    | script h => cases h

/-- A piece of text stands only where nothing interrupts it. -/
theorem interruption_of_text (h : Laid p chars tiles) (hregion : p.region = .markup) {t : Tile}
    (ht : t ∈ tiles.head?) (htext : t.token.kind.isText = true) :
    chars ≠ [] ∧ Lexeme.interruption? chars = none := by
  cases h with
  | stop p =>
    cases ht
    cases htext
  | layout _ hcode => rw [hregion] at hcode; cases hcode
  | @tile _ kind taken rest _ hne admits =>
    cases ht
    rw [hregion] at admits
    obtain ⟨content, rfl⟩ := TokenKind.eq_text_of_isText htext
    cases admits with
    | text _ hstart => exact ⟨List.append_ne_nil_of_left_ne_nil hne _, hstart⟩
    | opener h => cases h

/-- Behind a longest piece of text comes none. -/
theorem apart (h : Laid p chars tiles) :
    tiles.IsChain fun t u => ¬ (t.token.kind.isText = true ∧ u.token.kind.isText = true) := by
  induction h with
  | stop p => exact List.isChain_singleton _
  | layout _ _ _ _ ih => exact ih
  | @tile p kind taken rest tiles _ admits hrest ih =>
    refine List.isChain_cons.mpr ⟨?_, ih⟩
    rintro u hu ⟨htext, hnext⟩
    obtain ⟨content, rfl⟩ := TokenKind.eq_text_of_isText htext
    obtain ⟨hregion, hstop⟩ := admits.text_stop
    obtain ⟨hne, hnone⟩ := hrest.interruption_of_text hregion hu hnext
    obtain hnil | hsome := hstop
    · exact hne hnil
    · rw [hnone] at hsome
      cases hsome

/-! ## Layout -/

/-- The region changes behind a token. -/
theorem regionAt_cons {region : Region} {t : Tile} {offset : Nat} (h : t.stop ≤ offset) :
    regionAt region (t :: tiles) offset = regionAt (region.after t.token.kind) tiles offset := by
  have hfilter : (t :: tiles).filter (fun t => t.stop ≤ offset) =
      t :: tiles.filter fun t => t.stop ≤ offset := List.filter_cons_of_pos (decide_eq_true h)
  rw [regionAt, hfilter, List.foldl_cons, regionAt]

/-- What stands behind a place is in the region of the place until a token changes it. -/
theorem regionAt_of_lt {region : Region} {offset : Nat} (h : ∀ t ∈ tiles, offset < t.stop) :
    regionAt region tiles offset = region := by
  have hnone : (tiles.filter fun t => t.stop ≤ offset) = [] :=
    List.filter_eq_nil_iff.mpr fun t ht hle => absurd (h t ht) (Nat.not_lt.mpr (of_decide_eq_true hle))
  rw [regionAt, hnone, List.foldl_nil]

theorem between (h : Laid p chars tiles) (offset : Nat) (hle : p.offset ≤ offset)
    (hlt : offset < p.offset + utf8Length chars) (hfree : ∀ t ∈ tiles, ¬ t.Covers offset) :
    regionAt p.region tiles offset = .code ∧ InLayout p.offset chars tiles offset := by
  induction h with
  | stop p => exact absurd hlt (Nat.not_lt.mpr hle)
  | @layout p piece rest tiles spaced hregion hpiece hrest ih =>
    have hbehind : ∀ t ∈ tiles, p.offset + utf8Length piece ≤ t.start := fun t ht => hrest.offset_le ht
    by_cases hin : offset < p.offset + utf8Length piece
    · have hstop : ∀ t ∈ tiles, offset < t.stop := fun t ht =>
        Nat.lt_of_lt_of_le hin (Nat.le_trans (hbehind t ht) (Nat.le_add_right _ _))
      refine ⟨(regionAt_of_lt hstop).trans hregion, [], piece, rest, rfl, hpiece, hle, hin, ?_⟩
      exact fun t ht => .inr (hbehind t ht)
    · rw [utf8Length_append, ← Nat.add_assoc] at hlt
      obtain ⟨hcode, hlayout⟩ := ih (Nat.not_lt.mp hin) hlt hfree
      exact ⟨hcode, hlayout.behind [] nofun⟩
  | @tile p kind taken rest tiles hne admits hrest ih =>
    obtain ⟨hhead, htail⟩ := List.forall_mem_cons.mp hfree
    have hstop : p.offset + utf8Length taken ≤ offset := by
      by_contra hlt
      exact hhead ⟨hle, Nat.not_le.mp hlt⟩
    rw [utf8Length_append, ← Nat.add_assoc] at hlt
    obtain ⟨hcode, hlayout⟩ := ih hstop hlt htail
    refine ⟨?_, hlayout.behind [_] (List.forall_mem_singleton.mpr (Nat.le_refl _))⟩
    rw [Place.after, p.regionAfter_eq] at hcode
    exact (regionAt_cons hstop).trans hcode

/-! ## Adjacency -/

/-- What is marked as adjacent starts, as far as spans record it, where a token has just ended, be it
one of these tokens or the last one before the place. -/
theorem recorded (h : Laid p chars tiles) {before behind : List Tile} {t : Tile}
    (htiles : tiles = before ++ t :: behind) (marked : t.token.adjacent = true) :
    (before.getLast?.map fun u => u.token.span.stop).or p.lastStop = some t.token.span.start := by
  induction h generalizing before with
  | stop p =>
    have ht : t = ⟨p.offset, [], p.endToken⟩ :=
      List.mem_singleton.mp (htiles ▸ List.mem_append_right before List.mem_cons_self)
    rw [ht] at marked
    cases marked
  | layout _ _ _ _ ih => exact ih htiles
  | @tile p kind taken rest tiles _ _ _ ih =>
    cases before with
    | nil =>
      obtain ⟨rfl, -⟩ := List.cons.inj htiles
      exact eq_of_beq (Bool.and_eq_true_iff.mp marked).2
    | cons u before =>
      obtain ⟨rfl, hbehind⟩ := List.cons.inj htiles
      have further := ih hbehind
      rw [List.getLast?_cons]
      cases hlast : before.getLast? with
      | none => rwa [hlast] at further
      | some last => rwa [hlast] at further

/-- The first token is marked as adjacent if it starts at a place where one has just ended. -/
theorem head_adjacent (h : Laid p chars tiles) {t : Tile} (head : t ∈ tiles.head?)
    (kind : t.token.kind ≠ .endOfPage) (start : t.start = p.offset)
    (stop : p.lastStop = some (min p.offset Span.limit)) (spaced : p.spaced = false) :
    t.token.adjacent = true := by
  cases h with
  | stop p => cases head; exact absurd rfl kind
  | layout _ _ hpiece hrest =>
    have behind := hrest.offset_le (List.mem_of_head? head)
    exact absurd start (Nat.ne_of_gt
      (Nat.lt_of_lt_of_le (Nat.lt_add_of_pos_right (utf8Length_pos hpiece.ne_nil)) behind))
  | tile =>
    cases head
    refine Bool.and_eq_true_iff.mpr ⟨?_, beq_iff_eq.mpr stop⟩
    rw [spaced, Bool.not_false]

/-- **A token that starts where the one before it ends is marked as adjacent.** -/
theorem touching (h : Laid p chars tiles) {before behind : List Tile} {u t : Tile}
    (htiles : tiles = before ++ u :: t :: behind) (kind : t.token.kind ≠ .endOfPage)
    (touch : u.stop = t.start) : t.token.adjacent = true := by
  induction h generalizing before with
  | stop p =>
    obtain ⟨-, hnil⟩ | ⟨-, hnil⟩ := List.append_eq_singleton_iff.mp htiles.symm
    · cases hnil
    · cases hnil
  | layout _ _ _ _ ih => exact ih htiles
  | tile _ _ hrest ih =>
    cases before with
    | nil =>
      obtain ⟨rfl, rfl⟩ := List.cons.inj htiles
      exact hrest.head_adjacent rfl kind touch.symm rfl rfl
    | cons _ before => exact ih (List.cons.inj htiles).2

end Laid

theorem isTiling (region : Region) (source : String) {tiles : List Tile}
    (h : Laid (.start region) source.toList tiles) : IsTiling region source tiles where
  span := h.span_eq
  place := h.place
  order := h.order
  nonempty := h.nonempty
  between offset hlt := by
    rw [← utf8Length_toList, ← Nat.zero_add (utf8Length _)] at hlt
    exact h.between offset (Nat.zero_le _) hlt
  text := h.text
  apart := h.apart
  alternates := h.alternates
  touching before u t behind htiles := h.touching htiles
  recorded before t behind htiles marked := by
    have last := h.recorded htiles marked
    rw [Place.start, Option.or_none] at last
    obtain ⟨u, hu, stop⟩ := Option.map_eq_some_iff.mp last
    exact ⟨u, hu, stop⟩

namespace IsTiling

variable {region : Region} {source : String} {tiles : List Tile}

/-- What tiles a source stands inside it, so spans record it exactly if they reach so far. -/
theorem exactSpan (h : IsTiling region source tiles) (short : source.utf8ByteSize ≤ Span.limit) {t : Tile}
    (ht : t ∈ tiles) : t.token.span = ⟨t.start, t.stop⟩ := by
  have hstop : t.stop ≤ Span.limit := by
    have hle := (h.place t ht).stop_le
    rw [utf8Length_toList] at hle
    exact Nat.le_trans hle ((Nat.zero_add _).symm ▸ short)
  have hstart : t.start ≤ Span.limit := Nat.le_trans (Nat.le_add_right _ _) hstop
  rw [h.span t ht, Span.ofRange, Nat.min_eq_left hstart, Nat.min_eq_left hstop]

end IsTiling

end PageScript
