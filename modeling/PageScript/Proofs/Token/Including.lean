import PageScript.Proofs.Token.Directives
import PageScript.Proofs.Token.Standing
import PageScript.Syntax.Stmt.Parser

/-!
# Proofs/Token/Including — include directives in literal text

A place in literal text is where the reading of a source comes to, or a piece of text goes on over it
(`InLiteralText.standing`); the latter ends at the next interruption.  So a directive that is written at
such a place is a token, and any other comment is text, whatever it looks like
(`InLiteralText.isToken_or_text`).
-/

namespace PageScript

variable {c : Char} {chars mid behind rest : List Char}

namespace Lexeme

/-! ## The length of a text -/

/-- A text is as long from each of its places on. -/
theorem textLength_append_of_le (h : mid.length ≤ textLength (mid ++ behind)) :
    textLength (mid ++ behind) = mid.length + textLength behind := by
  induction mid with
  | nil => exact (Nat.zero_add _).symm
  | cons c mid ih =>
    rw [List.cons_append, textLength] at h ⊢
    split at h
    · cases h
    · rename_i goesOn
      rw [if_neg goesOn, ih (Nat.le_of_succ_le_succ h), List.length_cons]
      omega

theorem interruption?_of_textLength_pos (h : 0 < textLength chars) : interruption? chars = none := by
  cases chars with
  | nil => cases h
  | cons c rest =>
    rw [textLength] at h
    split at h
    · cases h
    · rename_i goesOn
      exact Option.not_isSome_iff_eq_none.mp goesOn

/-- The text that starts where nothing interrupts it. -/
theorem textLength_cons (h : interruption? (c :: rest) = none) :
    textLength (c :: rest) = textLength rest + 1 := by
  rw [textLength, h]
  rfl

/-- A text that goes on at the sign of a comment goes on over it. -/
theorem le_textLength_comment (h : interruption? ("<!--".toList ++ rest) = none) :
    4 ≤ textLength ("<!--".toList ++ rest) := by
  rw [show "<!--".toList ++ rest = '<' :: '!' :: '-' :: '-' :: rest from rfl] at h ⊢
  rw [textLength_cons h]
  simp [textLength, interruption?]

theorem inMarkup_interruption {kind : TokenKind} {length : Nat}
    (h : interruption? (c :: rest) = some (kind, length)) : inMarkup c rest = (kind, length - 1) := by
  rw [inMarkup, h]

theorem inMarkup_free (h : interruption? (c :: rest) = none) : inMarkup c rest =
    (.text (String.ofList (c :: rest.take (textLength rest))), textLength rest) := by
  rw [inMarkup, h]

/-- What is read as text in literal text is not interrupted at its front, and goes on as far as it
can. -/
theorem take_of_isText (h : (inMarkup c rest).1.isText = true) :
    c :: rest.take (inMarkup c rest).2 = (c :: rest).take (textLength (c :: rest)) := by
  cases found : interruption? (c :: rest) with
  | none => rw [inMarkup_free found, textLength_cons found, List.take_succ_cons]
  | some reading =>
    obtain ⟨kind, length⟩ := reading
    rw [inMarkup_interruption found] at h
    obtain ⟨content, rfl⟩ := TokenKind.eq_text_of_isText h
    have admits := admits_interruption found (c :: rest) []
    cases admits with
    | text _ hstart =>
      rw [List.append_nil, found] at hstart
      cases hstart
    | opener h => cases h

end Lexeme

/-- A piece of text is read in literal text. -/
theorem Place.markup_of_isText {p : Place} {kind : TokenKind} {more : Nat} (text : kind.isText = true)
    (found : p.lexeme c rest = (.token kind, more)) : p.region = .markup := by
  obtain ⟨content, rfl⟩ := TokenKind.eq_text_of_isText text
  exact (Place.lexeme_token found).text_stop.1

/-! ## Offsets and places -/

theorem eq_nil_of_utf8Length (h : utf8Length chars = 0) : chars = [] := by
  by_contra hne
  exact absurd h (Nat.ne_of_gt (utf8Length_pos hne))

/-- Of two ways to cut a text, the one with the greater offset cuts the second part of the other. -/
theorem exists_of_utf8Length_le {front front' left : List Char} (same : front ++ behind = front' ++ left)
    (h : utf8Length front' ≤ utf8Length front) : ∃ mid, front = front' ++ mid ∧ left = mid ++ behind := by
  obtain ⟨mid, rfl, rfl⟩ | ⟨mid, rfl, rfl⟩ := List.append_eq_append_iff.mp same
  · rw [utf8Length_append] at h
    obtain rfl : mid = [] := eq_nil_of_utf8Length (by omega)
    exact ⟨[], by rw [List.append_nil, List.append_nil], rfl⟩
  · exact ⟨mid, rfl, rfl⟩

theorem utf8Length_take_le (chars : List Char) {m n : Nat} (h : m ≤ n) :
    utf8Length (chars.take m) ≤ utf8Length (chars.take n) := by
  obtain ⟨behind, split⟩ := List.take_prefix_take_left h (l := chars)
  rw [← split, utf8Length_append]
  exact Nat.le_add_right _ _

/-- A place in literal text, behind some characters of a source and in front of the others: no token but
a piece of text goes on over it. -/
structure InLiteralText (region : Region) (source : String) (front behind : List Char) : Prop where
  split : source.toList = front ++ behind
  markup : regionAt region (tilesOf region source) (utf8Length front) = .markup
  outside : ∀ t ∈ tilesOf region source, t.start < utf8Length front → utf8Length front < t.stop →
    t.token.kind.isText = true

namespace InLiteralText

variable {region : Region} {source : String} {front : List Char}

/-- Some token stands at the place or goes on over it. -/
theorem exists_covers (h : InLiteralText region source front behind) (hne : behind ≠ []) :
    ∃ t ∈ tilesOf region source, t.Covers (utf8Length front) := by
  by_contra free
  push Not at free
  have inside : utf8Length front < source.utf8ByteSize := by
    rw [← utf8Length_toList, h.split, utf8Length_append]
    exact Nat.lt_add_of_pos_right (utf8Length_pos hne)
  obtain ⟨code, -⟩ := (isTiling_tilesOf region source).between _ inside free
  rw [h.markup] at code
  cases code

/-- What stands behind the place is read there as literal text, or a piece of text goes on over the place
and up to the next interruption. -/
theorem standing (h : InLiteralText region source front (c :: rest)) :
    IsToken region source (utf8Length front) (c :: rest.take (Lexeme.inMarkup c rest).2)
        (Lexeme.inMarkup c rest).1 ∨
      ∃ t ∈ tilesOf region source, t.token.kind.isText = true ∧ t.start ≤ utf8Length front ∧
        Lexeme.interruption? (c :: rest) = none ∧
        t.stop = utf8Length front + utf8Length ((c :: rest).take (Lexeme.textLength (c :: rest))) := by
  obtain ⟨t, ht, start, stop⟩ := h.exists_covers (List.cons_ne_nil c rest)
  obtain ⟨q, d, left, comes, found, offset, taken⟩ :=
    exists_comesTo_of_mem ht (Nat.lt_of_le_of_lt start stop)
  obtain ⟨front', split, stands⟩ := comes.offset_eq
  have start' : t.start = utf8Length front' := by rw [← offset, stands]; exact Nat.zero_add _
  rw [h.split] at split
  obtain ⟨mid, rfl, hleft⟩ := exists_of_utf8Length_le split (start' ▸ start)
  obtain rfl | hmid := eq_or_ne mid []
  · obtain ⟨rfl, rfl⟩ := List.cons.inj hleft
    have markup : q.region = .markup := by
      rw [← h.markup, List.append_nil, ← start', ← offset]
      exact comes.regionAt_eq.symm
    exact .inl (isToken_of_comesTo comes h.split (Place.lexeme_markup markup))
  · have within : t.start < utf8Length (front' ++ mid) := by
      rw [start', utf8Length_append]
      exact Nat.lt_add_of_pos_right (utf8Length_pos hmid)
    have text := h.outside t ht within stop
    have markup : q.region = .markup := Place.markup_of_isText text found
    rw [Place.lexeme_markup markup, Prod.mk.injEq, Lexeme.token.injEq] at found
    rw [Place.lexeme_markup markup, Lexeme.take_of_isText (found.1 ▸ text), hleft] at taken
    rw [Tile.stop, start', taken, utf8Length_append] at stop
    have inside : mid.length < Lexeme.textLength (mid ++ c :: rest) := by
      by_contra short
      have shorter := utf8Length_take_le (mid ++ c :: rest) (Nat.not_lt.mp short)
      rw [List.take_left] at shorter
      omega
    have length := Lexeme.textLength_append_of_le (Nat.le_of_lt inside)
    refine .inr ⟨t, ht, text, start, Lexeme.interruption?_of_textLength_pos (by omega), ?_⟩
    rw [Tile.stop, start', taken, length, List.take_length_add_append, utf8Length_append,
      utf8Length_append, Nat.add_assoc]

/-- A directive that is written at the place is a token. -/
theorem isToken_directive {path taken : List Char} {isVirtual : Bool}
    (h : InLiteralText region source front (taken ++ rest))
    (written : Directive.IsWritten path isVirtual taken) :
    IsToken region source (utf8Length front) taken (.includeFile (String.ofList path) isVirtual) := by
  have read : Directive.read? (taken ++ rest) = some ⟨String.ofList path, isVirtual, taken.length⟩ :=
    Directive.read?_eq_some.mpr ⟨taken, rest, rfl, rfl, by rwa [String.toList_ofList]⟩
  have interrupts := Lexeme.interruption?_of_read? read
  have hne : taken ≠ [] := by cases written; exact List.cons_ne_nil _ _
  obtain ⟨c, taken, rfl⟩ := List.exists_cons_of_ne_nil hne
  rw [List.cons_append] at h interrupts
  obtain standing | ⟨-, -, -, -, free, -⟩ := h.standing
  · rw [Lexeme.inMarkup_interruption interrupts, List.length_cons, Nat.add_sub_cancel,
      List.take_left] at standing
    exact standing
  · rw [interrupts] at free
    cases free

/-- A comment at the place that is no directive is text. -/
theorem exists_text (h : InLiteralText region source front ("<!--".toList ++ rest))
    (other : Directive.read? ("<!--".toList ++ rest) = none) :
    ∃ t ∈ tilesOf region source, t.token.kind.isText = true ∧ t.start ≤ utf8Length front ∧
      utf8Length front + utf8Length "<!--".toList ≤ t.stop := by
  have free : Lexeme.interruption? ("<!--".toList ++ rest) = none := congrArg (Option.map _) other
  have comment := utf8Length_take_le ("<!--".toList ++ rest) (Lexeme.le_textLength_comment free)
  have taken : ("<!--".toList ++ rest).take 4 = "<!--".toList := rfl
  rw [taken] at comment
  obtain ⟨c, chars, split⟩ : ∃ c chars, "<!--".toList ++ rest = c :: chars := ⟨_, _, rfl⟩
  rw [split] at h free comment
  obtain ⟨before, token, behind, tiles, -, kind, -⟩ | ⟨t, ht, text, start, -, stop⟩ := h.standing
  · refine ⟨_, tiles ▸ List.mem_append_right before List.mem_cons_self, ?_, Nat.le_refl _, ?_⟩
    · rw [kind, Lexeme.inMarkup_free free]
      rfl
    · have text : (Lexeme.inMarkup c chars).1.isText = true := by rw [Lexeme.inMarkup_free free]; rfl
      rw [Tile.stop, Lexeme.take_of_isText text]
      exact Nat.add_le_add_left comment _
  · exact ⟨t, ht, text, start, by omega⟩

end InLiteralText

/-- **Include directives are told from other comments.**  At every place in literal text a directive that
is written there is one token, with its path and its mode as written.  Every other comment is a part of
a piece of text, whether it begins like a directive or not. -/
theorem comments_in_text {region : Region} {source : String} {front behind : List Char}
    (h : InLiteralText region source front behind) :
    (∀ path isVirtual taken rest, behind = taken ++ rest → Directive.IsWritten path isVirtual taken →
      IsToken region source (utf8Length front) taken (.includeFile (String.ofList path) isVirtual)) ∧
    ∀ rest, behind = "<!--".toList ++ rest →
      (∀ path isVirtual taken rest, behind = taken ++ rest →
        ¬ Directive.IsWritten path isVirtual taken) →
      ∃ t ∈ tilesOf region source, t.token.kind = .text (String.ofList t.chars) ∧
        t.start ≤ utf8Length front ∧ utf8Length front + utf8Length "<!--".toList ≤ t.stop := by
  refine ⟨?_, ?_⟩
  · rintro path isVirtual taken rest rfl written
    exact h.isToken_directive written
  · rintro rest rfl unwritten
    obtain ⟨t, ht, text, start, stop⟩ := h.exists_text (Directive.read?_eq_none.mpr unwritten)
    obtain ⟨content, kind⟩ := TokenKind.eq_text_of_isText text
    refine ⟨t, ht, ?_, start, stop⟩
    rw [kind, ((isTiling_tilesOf region source).text t ht content kind).1]

/-- A directive with a delimiter in its path and letters of both cases, behind other text. -/
theorem comments_in_text_directive :
    InLiteralText .markup "é<!--#INCLUDE File=\"<%.inc\" -->." "é".toList
        ("<!--#INCLUDE File=\"<%.inc\" -->".toList ++ ['.']) ∧
      Directive.IsWritten "<%.inc".toList false "<!--#INCLUDE File=\"<%.inc\" -->".toList ∧
      IsToken .markup "é<!--#INCLUDE File=\"<%.inc\" -->." 2 "<!--#INCLUDE File=\"<%.inc\" -->".toList
        (.includeFile "<%.inc" false) := by
  have tiles : tilesOf .markup "é<!--#INCLUDE File=\"<%.inc\" -->." =
      [⟨0, "é".toList, ⟨.text "é", ⟨0, 2⟩, false, false⟩⟩,
        ⟨2, "<!--#INCLUDE File=\"<%.inc\" -->".toList,
          ⟨.includeFile "<%.inc" false, ⟨2, 32⟩, false, true⟩⟩,
        ⟨32, ['.'], ⟨.text ".", ⟨32, 33⟩, false, true⟩⟩, ⟨33, [], ⟨.endOfPage, ⟨33, 33⟩, true, false⟩⟩] := by
    with_unfolding_all rfl
  have place : InLiteralText .markup "é<!--#INCLUDE File=\"<%.inc\" -->." "é".toList
      ("<!--#INCLUDE File=\"<%.inc\" -->".toList ++ ['.']) := by
    refine ⟨by decide +kernel, by rw [tiles]; decide +kernel, ?_⟩
    rw [tiles]
    decide +kernel
  have written : Directive.IsWritten "<%.inc".toList false "<!--#INCLUDE File=\"<%.inc\" -->".toList := by
    exact @Directive.IsWritten.intro _ _ [] "#INCLUDE".toList [' '] "File".toList [] [] [' ']
      (by decide +kernel) (by decide +kernel) (by decide +kernel) (by decide +kernel) (by decide +kernel)
      (by decide +kernel) (by decide +kernel) (by decide +kernel) (by decide +kernel)
  exact ⟨place, written, (comments_in_text place).1 _ _ _ _ rfl written⟩

/-- A comment that begins like a directive, but has its path without quotes, is text without any sign of
a mistake, and the page is read. -/
theorem text_of_unquoted_directive :
    InLiteralText .markup "<!-- #include file=a.inc -->" [] "<!-- #include file=a.inc -->".toList ∧
      Directive.Begins "<!-- #include file=a.inc -->".toList ∧
      (∀ path isVirtual taken rest, "<!-- #include file=a.inc -->".toList = taken ++ rest →
        ¬ Directive.IsWritten path isVirtual taken) ∧
      (∀ token ∈ tokensOf .markup "<!-- #include file=a.inc -->", token.kind ≠ .invalid) ∧
      ∃ stmts, programOf? .markup "<!-- #include file=a.inc -->" = .ok stmts := by
  have tiles : tilesOf .markup "<!-- #include file=a.inc -->" =
      [⟨0, "<!-- #include file=a.inc -->".toList,
        ⟨.text "<!-- #include file=a.inc -->", ⟨0, 28⟩, false, false⟩⟩,
        ⟨28, [], ⟨.endOfPage, ⟨28, 28⟩, true, false⟩⟩] := by
    with_unfolding_all rfl
  have tokens : tokensOf .markup "<!-- #include file=a.inc -->" =
      [⟨.text "<!-- #include file=a.inc -->", ⟨0, 28⟩, false, false⟩,
        ⟨.endOfPage, ⟨28, 28⟩, true, false⟩] := by
    rw [← map_token_tilesOf, tiles]
    rfl
  have valid : ∀ token ∈ tokensOf .markup "<!-- #include file=a.inc -->", token.kind ≠ .invalid := by
    rw [tokens, List.forall_mem_cons, List.forall_mem_singleton]
    exact ⟨nofun, nofun⟩
  have parsed : ∃ stmts, programOf? .markup "<!-- #include file=a.inc -->" = .ok stmts := by
    rw [programOf?, tokens]
    exact ⟨_, by with_unfolding_all rfl⟩
  refine ⟨⟨rfl, by rw [tiles]; decide +kernel, by rw [tiles]; decide +kernel⟩, ?_,
    Directive.read?_eq_none.mp (by with_unfolding_all rfl), valid, parsed⟩
  exact ⟨[' '], "#include".toList, ' ', "file=a.inc -->".toList, rfl, by decide +kernel, by decide +kernel, rfl⟩

end PageScript
