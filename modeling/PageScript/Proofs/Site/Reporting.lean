import PageScript.Proofs.Site.Attaching
import PageScript.Proofs.Syntax.Ending
import PageScript.Proofs.Text.Positions
import PageScript.Proofs.Token.Standing

/-!
# Proofs/Site/Reporting — a syntax error is reported where its token starts

A reading that fails stops at a token of the page (`Parse.stopsAt_program`), the tokens of a source
stand on its characters, and the span of each tells how many bytes are in front of it.  So the error of
a source is about a token there (`SyntaxError.exists_standsAt`), and the position with which a file is
refused counts the lines and characters up to the first character of that token, in the text of the
very file, however deep it was included (`Includer.reports_of_loadPage`).
-/

namespace PageScript

variable {region : Region} {source : String} {e : SyntaxError}

/-! ## The token that an error is about -/

/-- A page that is not read is not read from one of its tokens on. -/
theorem Parse.stopsAt_program {tokens : List Token} (page : Token.IsPage tokens)
    (h : programOfTokens? tokens = .error e) : (Cursor.start tokens).StopsAt e := by
  have outcomes : Outcomes .sharp 0 0 _ _ _ _ _ :=
    Parse.abreast_program (page.isIn_start.abreast page)
  rw [programOfTokens?_eq] at h
  generalize program (.start tokens) = x at h outcomes
  cases outcomes with
  | done => nomatch h
  | failed _ _ stops =>
    cases h
    exact stops

theorem Region.Admits.kind_ne_endOfPage {behind chars : List Char} {kind : TokenKind}
    (h : region.Admits behind kind chars) : kind ≠ .endOfPage := by
  rintro rfl
  cases h <;> contradiction

/-- The token that ends the page stands behind all characters, and on none. -/
theorem Laid.eq_of_endOfPage {p : Place} {chars : List Char} {tiles : List Tile}
    (h : Laid p chars tiles) {t : Tile} (ht : t ∈ tiles) (ends : t.token.kind = .endOfPage) :
    t.chars = [] ∧ t.start = p.offset + utf8Length chars := by
  induction h with
  | stop p =>
    obtain rfl := List.mem_singleton.mp ht
    exact ⟨rfl, rfl⟩
  | layout spaced hregion _ _ ih =>
    rw [utf8Length_append, ← Nat.add_assoc]
    exact ih ht
  | @tile p kind _ _ _ _ admits _ ih =>
    obtain rfl | ht := List.mem_cons.mp ht
    · exact absurd ends admits.kind_ne_endOfPage
    · rw [utf8Length_append, ← Nat.add_assoc]
      exact ih ht

namespace SyntaxError

/-- An error of a source is about a token that stands on certain characters of it, behind other ones.
All tokens in front of that one are proper. -/
structure StandsAt (e : SyntaxError) (region : Region) (source : String) (before : List Char)
    (t : Tile) : Prop where
  token : ∃ front behind, tilesOf region source = front ++ t :: behind ∧
    ∀ u ∈ front, u.token.kind.isProper = true
  about : e.IsAbout t.token
  place : ∃ behind, source.toList = before ++ t.chars ++ behind
  span : e.span = ⟨utf8Length before, utf8Length (before ++ t.chars)⟩
  /-- There is a first character, unless the error is about the end of the page. -/
  first : t.token.kind ≠ .endOfPage → t.chars ≠ []
  last : t.token.kind = .endOfPage → before = source.toList

/-- The error is reported at the position of the first character of the token that it is about. -/
def IsReportedAt (e : SyntaxError) (region : Region) (source : String) (position : Position) : Prop :=
  ∃ before t, e.StandsAt region source before t ∧ position = .behind before

theorem exists_standsAt (fits : source.utf8ByteSize ≤ Span.limit)
    (h : programOf? region source = .error e) : ∃ before t, e.StandsAt region source before t := by
  have page : Token.IsPage (tokensOf region source) := Token.isPage_tokensFrom _ _
  obtain ⟨taken, token, rest, htokens, proper, about⟩ := Parse.stopsAt_program page h
  have htiles : (tilesOf region source).map Tile.token = taken ++ token :: rest :=
    (map_token_tilesOf region source).trans htokens
  obtain ⟨front, others, split, rfl, hothers⟩ := List.map_eq_append_iff.mp htiles
  obtain ⟨t, behind, rfl, rfl, rfl⟩ := List.map_eq_cons_iff.mp hothers
  have mem : t ∈ tilesOf region source := split ▸ List.mem_append_right front List.mem_cons_self
  have tiling := isTiling_tilesOf region source
  obtain ⟨before, after, chars, start⟩ := tiling.place t mem
  rw [Nat.zero_add] at start
  refine ⟨before, t, ⟨front, behind, split, fun u hu => proper _ (List.mem_map_of_mem hu)⟩, about,
    ⟨after, chars⟩, ?_, fun inside => ?_, fun ends => ?_⟩
  · rw [about.1, tiling.exactSpan fits mem, Tile.stop, start, utf8Length_append]
  · rintro none
    have nonempty := tiling.nonempty t mem inside
    rw [Tile.stop, none] at nonempty
    exact Nat.lt_irrefl _ nonempty
  · -- As many bytes are in front of the end of the page as the source has.
    obtain ⟨none, atEnd⟩ := (laid_tilesFrom _ _).eq_of_endOfPage mem ends
    have bytes : utf8Length before = utf8Length (before ++ after) := by
      rw [← start, atEnd, chars, none, List.append_nil]
      exact Nat.zero_add _
    rw [utf8Length_append] at bytes
    have nothing : after = [] := by
      by_contra more
      have := utf8Length_pos more
      omega
    rw [chars, none, nothing, List.append_nil, List.append_nil]

/-- The error is about a place in the source, and reported at its position unless that is the largest
offset. -/
structure IsPlaced (e : SyntaxError) (region : Region) (source : String) (position : Position) : Prop where
  start_le : e.span.start ≤ source.utf8ByteSize
  reported : e.span.start < 4294967295 → e.IsReportedAt region source position

/-- An error of a source is reported at the position that the line table finds for its span. -/
theorem isPlaced (fits : source.utf8ByteSize ≤ Span.limit) (h : programOf? region source = .error e) :
    e.IsPlaced region source (positionIn source e.span.start) := by
  obtain ⟨before, t, stands⟩ := exists_standsAt fits h
  obtain ⟨behind, chars⟩ := stands.place
  have split : before ++ (t.chars ++ behind) = source.toList := by rw [chars, List.append_assoc]
  have bytes := LineTable.utf8Length_add_of_split split
  have start : e.span.start = utf8Length before := congrArg Span.start stands.span
  refine ⟨by omega, fun inside => ⟨before, t, stands, ?_⟩⟩
  rw [start]
  exact positionIn_eq ⟨_, split⟩ fits (start ▸ inside)

end SyntaxError

/-! ## Reports of files -/

theorem exists_of_readProgram {path : Path} {fault : PageFault}
    (fits : source.utf8ByteSize ≤ Span.limit) (h : readProgram path region source = .error fault) :
    ∃ position e, fault = .badSource path position e ∧ e.IsPlaced region source position := by
  unfold readProgram at h
  split at h
  case h_1 => nomatch h
  case h_2 e failed =>
    cases h
    exact ⟨_, e, rfl, SyntaxError.isPlaced fits failed⟩

namespace Includer

variable {reader : Reader} {rules : LoadRules} {file page : Path} {position : Position}

/-- The file can be read, and the error is reported at its position in the text of the file. -/
def Reports (reader : Reader) (rules : LoadRules) (file : Path) (position : Position)
    (e : SyntaxError) : Prop :=
  ∃ source, reader.read file = .ok source ∧ (source.utf8ByteSize < 4294967296 →
    e.IsPlaced (if rules.isMarkup file then .markup else .code) source position)

theorem reports_of_load (h : (ofReader reader rules).load page = .error (.badSource file position e)) :
    Reports reader rules file position e := by
  simp only [ofReader] at h
  split at h
  case h_1 => nomatch h
  case h_2 source reads =>
    obtain rfl : page = file := by
      unfold readProgram at h
      split at h
      · nomatch h
      · cases h; rfl
    refine ⟨source, reads, fun fits => ?_⟩
    obtain ⟨_, _, same, placed⟩ := exists_of_readProgram (Nat.le_of_lt_succ fits) h
    cases same
    exact placed

/-- Expansion passes on what loading a file reports. -/
theorem reports_of_expandWithin {bound : Nat} {above : List Path} {body : List Stmt}
    (h : (ofReader reader rules).expandWithin bound page above body =
      .error (.badSource file position e)) : Reports reader rules file position e := by
  induction bound generalizing page above body with
  | zero => nomatch h
  | succ bound ih =>
    obtain ⟨directive, -, attach⟩ := Stmt.exists_of_expandBody_eq_error h
    dsimp only at attach
    split at attach
    · nomatch attach
    · generalize loads : (ofReader reader rules).load _ = loaded at attach
      cases loaded with
      | error fault =>
        cases attach
        exact reports_of_load loads
      | ok included => exact ih attach

theorem reports_of_loadPage
    (h : (ofReader reader rules).loadPage page = .error (.badSource file position e)) :
    Reports reader rules file position e := by
  unfold loadPage at h
  generalize loads : (ofReader reader rules).load _ = loaded at h
  cases loaded with
  | error fault =>
    cases h
    exact reports_of_load loads
  | ok body => exact reports_of_expandWithin h

end Includer

/-- **Positions are exact.**  At every boundary between two characters of a source shorter than 4 GiB,
its two ends included, the line is one more than the line feeds in front, and the column one more than
the characters behind the last of them, in 32 bits.  They hold both numbers in front of the largest
offset, so that boundaries and positions have the same order there, and different boundaries different
positions; only the end of a source of 4294967295 bytes is not in front of it.  A source that is no
program is refused with the position of the first character of the token that the error is about, with
the same exception, and so is every file that a page includes. -/
theorem positions_exact :
    (∀ source : String, source.utf8ByteSize < 4294967296 → ∀ before, before <+: source.toList →
      positionIn source (utf8Length before) = ⟨(1 + before.count '\n') % 4294967296,
          (1 + (before.rtakeWhile (· ≠ '\n')).length) % 4294967296⟩ ∧
        (utf8Length before < 4294967295 →
          positionIn source (utf8Length before) =
              ⟨1 + before.count '\n', 1 + (before.rtakeWhile (· ≠ '\n')).length⟩ ∧
            ∀ before', before' <+: source.toList → utf8Length before' < 4294967295 →
              (utf8Length before < utf8Length before' ↔
                  positionIn source (utf8Length before) < positionIn source (utf8Length before')) ∧
                (utf8Length before = utf8Length before' ↔
                  positionIn source (utf8Length before) =
                    positionIn source (utf8Length before')))) ∧
      (∀ (path : Path) (region : Region) (source : String) (fault : PageFault),
        source.utf8ByteSize < 4294967296 → readProgram path region source = .error fault →
          ∃ position e, fault = .badSource path position e ∧ e.IsPlaced region source position) ∧
        ∀ (reader : Reader) (rules : LoadRules) (page file : Path) (position : Position)
          (e : SyntaxError), (Includer.ofReader reader rules).loadPage page =
              .error (.badSource file position e) →
            Includer.Reports reader rules file position e := by
  refine ⟨fun source fits before h => ?_,
    fun path region source fault fits => exists_of_readProgram (Nat.le_of_lt_succ fits),
    fun reader rules page file position e => Includer.reports_of_loadPage⟩
  have fits : source.utf8ByteSize ≤ Span.limit := Nat.le_of_lt_succ fits
  refine ⟨?_, fun inside => ⟨?_, fun before' h' inside' => ?_⟩⟩
  · rw [positionIn_eq_held h fits, Nat.add_comm 1, Nat.add_comm 1]
    rfl
  · rw [positionIn_eq h fits inside, Position.behind, Nat.add_comm 1, Nat.add_comm 1, lastLine]
  · rw [positionIn_eq h fits inside, positionIn_eq h' fits inside']
    exact ⟨Position.utf8Length_lt_iff h h', Position.utf8Length_eq_iff h h'⟩

/-- A page includes a file with `)` for an expression behind a character of two bytes and a line feed. -/
theorem positions_exact_included :
    let text := "s = \"é\"\ny = )"
    let reader : Reader := ⟨fun path =>
      .ok (if path.text = "page.asp" then "<!--#include file=\"a\"-->" else text), 2⟩
    (text.utf8ByteSize < 4294967296 ∧ "s = \"é".toList <+: text.toList ∧
        positionIn text 7 = ⟨1, 7⟩) ∧
      ∃ e, (Includer.ofReader reader ⟨⟨"."⟩, ["asp"]⟩).loadPage ⟨"page.asp"⟩ =
          .error (.badSource ⟨"a"⟩ ⟨2, 5⟩ e) ∧
        e.IsReportedAt .code text ⟨2, 5⟩ := by
  intro text reader
  have fits : text.utf8ByteSize < 4294967296 := by decide +kernel
  have boundary : "s = \"é".toList <+: text.toList := ⟨"\"\ny = )".toList, by decide +kernel⟩
  refine ⟨⟨fits, boundary, ?_⟩, ?_⟩
  · exact ((positions_exact.1 text fits _ boundary).2 (by decide +kernel)).1
  · have refused : (match (Includer.ofReader reader ⟨⟨"."⟩, ["asp"]⟩).loadPage ⟨"page.asp"⟩ with
        | .error (.badSource file position _) => file.text == "a" && position == ⟨2, 5⟩
        | _ => false) = true := by decide +kernel
    split at refused
    case h_1 file position e h =>
      simp only [Bool.and_eq_true, beq_iff_eq] at refused
      obtain ⟨named, rfl⟩ := refused
      obtain ⟨_⟩ := file
      cases named
      obtain ⟨read, reads, reported⟩ := positions_exact.2.2 _ _ _ _ _ _ h
      cases reads
      have placed := reported fits
      exact ⟨e, h, placed.reported (Nat.lt_of_le_of_lt placed.start_le (by decide +kernel))⟩
    case h_2 => nomatch refused

/-- The end of a line of 4294967295 bytes has no column in 32 bits: its position is in front of that of
the beginning of the line. -/
theorem positions_beyond_column :
    let line := List.replicate 4294967295 'x'
    let source := String.ofList line
    source.utf8ByteSize < 4294967296 ∧ line <+: source.toList ∧
      positionIn source (utf8Length line) = ⟨1, 0⟩ ∧
      1 + (line.rtakeWhile (· ≠ '\n')).length = 4294967296 ∧
      utf8Length [] < utf8Length line ∧
      positionIn source (utf8Length line) < positionIn source (utf8Length []) := by
  intro line source
  have bytes : utf8Length line = Span.limit := utf8Length_replicate Span.limit 'x'
  have size : source.utf8ByteSize = Span.limit := (utf8ByteSize_ofList line).trans bytes
  have behind : Position.behind line = ⟨1, Span.limit + 1⟩ :=
    Position.behind_replicate (by decide) Span.limit
  have whole : line <+: source.toList := String.toList_ofList.symm ▸ List.prefix_rfl
  have atEnd : positionIn source (utf8Length line) = ⟨1, 0⟩ := by
    rw [positionIn_eq_held whole (Nat.le_of_eq size), Position.held, behind]
    rfl
  have atStart : positionIn source (utf8Length []) = ⟨1, 1⟩ :=
    positionIn_eq List.nil_prefix (Nat.le_of_eq size) (by decide)
  refine ⟨Nat.lt_succ_of_le (Nat.le_of_eq size), whole, atEnd, ?_, ?_, ?_⟩
  · rw [Nat.add_comm]
    exact congrArg Position.column behind
  · rw [bytes]
    decide
  · rw [atEnd, atStart]
    exact .inr ⟨rfl, Nat.zero_lt_one⟩

end PageScript
