import PageScript.Proofs.Token.Guarded
import PageScript.Proofs.Token.Tiling

/-!
# Proofs/Token/Layout — layout is read as layout

A blank, a comment or a continued line is read from the characters that it takes, whatever is behind
it, as long as a comment still has an end there (`IsLayout.inCode`, `IsLayout.exchange`).  A place of
a code region is moved on over layout and over tokens one at a time (`tokensFrom_layout`,
`tokensFrom_token`), and a token touches the one before it if no layout stands between them.
-/

namespace PageScript

variable {c : Char} {cs body behind behind' piece rest : List Char}

/-- Where a comment ends: at the end of the source, of the line or of the region. -/
def EndsComment (behind : List Char) : Prop :=
  behind = [] ∨ ['\n'] <+: behind ∨ ['%', '>'] <+: behind

theorem EndsComment.not_isWordChar (h : EndsComment behind) :
    ∀ c ∈ behind.head?, Lexeme.isWordChar c = false := by
  rintro c hc
  obtain rfl | ⟨tail, rfl⟩ | ⟨tail, rfl⟩ := h
  · nomatch hc
  · obtain rfl : '\n' = c := Option.some.inj hc
    rfl
  · obtain rfl : '%' = c := Option.some.inj hc
    rfl

namespace IsLayout

/-- Layout stays so in front of another rest, if a comment ends there as well. -/
theorem exchange (h : IsLayout behind piece) (hends : EndsComment behind → EndsComment behind') :
    IsLayout behind' piece := by
  cases h with
  | blank h => exact .blank h
  | continuation hgap hending => exact .continuation hgap hending
  | @comment mark body hmark hline hregion hstop =>
    refine .comment ?_ hline hregion (hends hstop)
    cases hmark with
    | apostrophe => exact .apostrophe
    | word hfold hends' =>
      refine .word hfold ?_
      cases body with
      | nil => exact (hends hstop).not_isWordChar
      | cons c body => exact hends'

end IsLayout

namespace Lexeme

/-- A comment goes on over what ends none. -/
theorem remarkLength_past (hline : '\n' ∉ body) (hregion : ¬ ['%', '>'] <:+: body)
    (hstart : ∀ tail, behind ≠ '>' :: tail) :
    remarkLength (body ++ behind) = body.length + remarkLength behind := by
  induction body with
  | nil => exact (Nat.zero_add _).symm
  | cons c body ih =>
    rw [List.mem_cons, not_or] at hline
    rw [List.infix_cons_iff, not_or] at hregion
    rw [List.cons_append, remarkLength, ih hline.2 hregion.2, List.length_cons]
    · omega
    · exact fun same => hline.1 same.symm
    · rintro tail rfl same
      cases body with
      | nil => exact hstart tail same
      | cons d body =>
        obtain ⟨rfl, -⟩ := List.cons.inj same
        exact hregion.1 ⟨body, rfl⟩

/-- A comment takes what is in front of its end. -/
theorem remarkLength_append (hline : '\n' ∉ body) (hregion : ¬ ['%', '>'] <:+: body)
    (hstop : EndsComment behind) : remarkLength (body ++ behind) = body.length := by
  rw [remarkLength_past hline hregion]
  · obtain rfl | ⟨tail, rfl⟩ | ⟨tail, rfl⟩ := hstop <;> rfl
  · rintro tail rfl
    obtain h | ⟨_, h⟩ | ⟨_, h⟩ := hstop <;> cases h

theorem remarkLength_cons (c : Char) (rest : List Char) : remarkLength (c :: rest) =
    if c == '\n' || (c == '%' && rest.head? == some '>') then 0 else remarkLength rest + 1 := by
  by_cases line : c = '\n'
  · subst line
    rfl
  by_cases close : c = '%' ∧ rest.head? = some '>'
  · obtain ⟨rfl, close⟩ := close
    obtain ⟨tail, rfl⟩ := List.head?_eq_some_iff.mp close
    rfl
  rw [remarkLength, if_neg]
  · rw [Bool.or_eq_true, Bool.and_eq_true, beq_iff_eq, beq_iff_eq, beq_iff_eq, not_or]
    exact ⟨line, close⟩
  · exact line
  · rintro tail rfl rfl
    exact close ⟨rfl, rfl⟩

/-- Case does not matter to the length of a comment. -/
theorem remarkLength_eq {chars chars' : List Char} (h : Alike chars chars') :
    remarkLength chars' = remarkLength chars := by
  induction h with
  | nil => rfl
  | cons head tail ih =>
    rw [remarkLength_cons, remarkLength_cons, head.beq_eq (by decide), head.beq_eq (by decide),
      Alike.head?_beq tail (by decide), ih]

theorem inCode_underscore (rest : List Char) : inCode '_' rest =
    match rest.drop (rest.takeWhile isGap).length with
    | '\n' :: _ => (.remark, (rest.takeWhile isGap).length + 1)
    | '\r' :: '\n' :: _ => (.remark, (rest.takeWhile isGap).length + 2)
    | _ => (.token .invalid, (rest.takeWhile isGap).length) :=
  rfl

/-- The word that starts a comment, in whatever case, is one of letters. -/
theorem exists_rem {mark : List Char} (h : foldCase (String.ofList mark) = "rem") :
    ∃ c cs, mark = c :: cs ∧ c.isAlpha = true ∧ ∀ c ∈ mark, isWordChar c = true := by
  have alike : Alike ['r', 'e', 'm'] mark := by
    refine .of_map_eq ?_
    have letters := congrArg String.toList h
    rw [foldCase, String.toList_ofList, String.toList_ofList] at letters
    exact letters.trans (by decide)
  obtain ⟨r, behindR, hr, alikeR, rfl⟩ := List.forall₂_cons_left_iff.mp alike
  obtain ⟨e, behindE, he, alikeE, rfl⟩ := List.forall₂_cons_left_iff.mp alikeR
  obtain ⟨m, behindM, hm, alikeM, rfl⟩ := List.forall₂_cons_left_iff.mp alikeE
  obtain rfl := List.forall₂_nil_left_iff.mp alikeM
  refine ⟨r, [e, m], rfl, hr.isAlpha_eq, ?_⟩
  simp only [List.forall_mem_cons, hr.isWordChar_eq, he.isWordChar_eq, hm.isWordChar_eq]
  exact ⟨rfl, rfl, rfl, List.forall_mem_nil _⟩

end Lexeme

/-- **Layout is read as layout**: a blank as such, and everything else as what separates. -/
theorem IsLayout.inCode (h : IsLayout behind (c :: cs)) :
    Lexeme.inCode c (cs ++ behind) = (.blank, cs.length) ∨
      Lexeme.inCode c (cs ++ behind) = (.remark, cs.length) := by
  generalize hpiece : c :: cs = piece at h
  cases h with
  | blank h =>
    cases hpiece
    exact .inl (if_pos h)
  | @comment mark body hmark hline hregion hstop =>
    right
    have length := Lexeme.remarkLength_append hline hregion hstop
    cases hmark with
    | apostrophe =>
      obtain ⟨rfl, rfl⟩ := List.cons.inj hpiece
      exact Prod.ext rfl length
    | word hfold hends =>
      obtain ⟨d, ds, rfl, letter, word⟩ := Lexeme.exists_rem hfold
      obtain ⟨rfl, rfl⟩ : c = d ∧ cs = ds ++ body := List.cons.inj hpiece
      have letters := takeWhile_run word hends
      rw [Lexeme.inCode_of_isAlpha letter, List.append_assoc, ← List.cons_append, Lexeme.ofWord,
        letters]
      simp only [hfold, if_true, List.drop_left, length]
      rw [List.length_append, List.length_cons]
      congr 1
      omega
  | @continuation gap ending hgap hending =>
    obtain ⟨rfl, rfl⟩ := List.cons.inj hpiece
    right
    have run : (gap ++ (ending ++ behind)).takeWhile Lexeme.isGap = gap := by
      refine takeWhile_run hgap fun c hc => ?_
      obtain rfl | rfl := hending <;> cases hc <;> rfl
    rw [List.append_assoc, Lexeme.inCode_underscore, run, List.drop_left, List.length_append]
    obtain rfl | rfl := hending <;> rfl

theorem not_isAlpha_of_isSpace (h : Lexeme.isSpace c = true) : c.isAlpha = false := by
  simp only [Lexeme.isSpace, Bool.or_eq_true, beq_iff_eq, or_assoc] at h
  obtain rfl | rfl | rfl | rfl := h <;> rfl

/-- Layout is layout in any case. -/
theorem IsLayout.recase {piece' : List Char} (h : IsLayout behind piece)
    (alike : Alike piece piece') : IsLayout behind piece' := by
  cases h with
  | blank h =>
    have letterless := alike.eq_of_not_isAlpha
      (List.forall_mem_singleton.mpr (not_isAlpha_of_isSpace h))
    exact letterless ▸ .blank h
  | @continuation gap ending hgap hending =>
    rw [alike.eq_of_not_isAlpha]
    · exact .continuation hgap hending
    rintro d (_ | ⟨_, hd⟩)
    · rfl
    obtain hd | hd := List.mem_append.mp hd
    · exact not_isAlpha_of_isSpace (by rw [Lexeme.isSpace, ← Lexeme.isGap, hgap d hd]; rfl)
    · obtain rfl | rfl := hending
      · obtain rfl := List.mem_singleton.mp hd
        rfl
      · obtain rfl | rfl := List.mem_pair.mp hd <;> rfl
  | @comment mark body hmark hline hregion hstop =>
    obtain ⟨mark', body', rfl, alikeMark, alikeBody⟩ := alike.append_inv
    have ended := alikeBody.append (.refl behind)
    have length : Lexeme.remarkLength (body' ++ behind) = body'.length := by
      rw [Lexeme.remarkLength_eq ended, Lexeme.remarkLength_append hline hregion hstop,
        alikeBody.length_eq]
    have hmark' : IsCommentMark (body' ++ behind) mark' := by
      cases hmark with
      | apostrophe =>
        rw [alikeMark.eq_of_not_isAlpha (List.forall_mem_singleton.mpr rfl)]
        exact .apostrophe
      | word hfold hends =>
        exact .word (alikeMark.foldCase_eq.trans hfold)
          (ended.head?_eq_false SameLetter.isWordChar_eq hends)
    have layout := Lexeme.isLayout_comment hmark'
    rwa [length, List.drop_left, List.take_left] at layout

theorem EndsComment.recase (alike : Alike behind behind') (h : EndsComment behind) :
    EndsComment behind' := by
  obtain rfl | ⟨tail, rfl⟩ | ⟨tail, rfl⟩ := h
  · exact .inl (List.forall₂_nil_left_iff.mp alike)
  · obtain ⟨mark, rest, rfl, alikeMark, -⟩ := alike.append_inv
    obtain rfl := alikeMark.eq_of_not_isAlpha (List.forall_mem_singleton.mpr rfl)
    exact .inr (.inl ⟨rest, rfl⟩)
  · obtain ⟨mark, rest, rfl, alikeMark, -⟩ := alike.append_inv
    obtain rfl := alikeMark.eq_of_not_isAlpha
      (List.forall_mem_cons.mpr ⟨rfl, List.forall_mem_singleton.mpr rfl⟩)
    exact .inr (.inr ⟨rest, rfl⟩)

/-! ## Moving a place on -/

namespace Place

/-- Whether a token at the place touches the one before it, going by what is recorded of both. -/
def touches (p : Place) : Bool := !p.spaced && p.lastStop == some (min p.offset Span.limit)

/-- A place in a code region that no token has been read behind. -/
structure IsCode (p : Place) : Prop where
  code : p.region = .code
  sound : ∀ stop, p.lastStop = some stop → stop ≤ p.offset

variable (p : Place) (kind : TokenKind) (stop : Nat)

theorem isCode_start : (Place.start .code).IsCode := ⟨rfl, nofun⟩

theorem sound_behind (last : Nat) (h : (p.after (.token kind) stop).lastStop = some last) :
    last ≤ (p.after (.token kind) stop).offset := by
  cases h
  exact Nat.min_le_left _ _

theorem touches_behind : (p.after (.token kind) stop).touches = true :=
  beq_self_eq_true (some (min stop Span.limit))

end Place

/-- Layout moves the place on, and what is behind it touches nothing, as long as spans tell offsets
apart. -/
theorem tokensFrom_layout {p : Place} (hp : p.IsCode) (h : IsLayout rest piece) :
    ∃ q : Place, q.IsCode ∧ q.offset = p.offset + utf8Length piece ∧
      (q.offset ≤ Span.limit → q.touches = false) ∧ tokensFrom p (piece ++ rest) = tokensFrom q rest := by
  obtain ⟨c, cs, rfl⟩ := List.exists_cons_of_ne_nil h.ne_nil
  have before {stop : Nat} (last : p.lastStop = some stop) : stop < p.offset + utf8Length (c :: cs) :=
    Nat.lt_of_le_of_lt (hp.sound stop last) (Nat.lt_add_of_pos_right (utf8Length_pos h.ne_nil))
  have behind (spaced : Bool) :
      (Place.mk p.region (p.offset + utf8Length (c :: cs)) p.lastStop spaced).IsCode :=
    ⟨hp.code, fun _ last => Nat.le_of_lt (before last)⟩
  have apart (spaced : Bool) (short : p.offset + utf8Length (c :: cs) ≤ Span.limit) :
      (Place.mk p.region (p.offset + utf8Length (c :: cs)) p.lastStop spaced).touches = false := by
    refine Bool.and_eq_false_iff.mpr (.inr (beq_eq_false_iff_ne.mpr fun last => ?_))
    rw [Nat.min_eq_left short] at last
    exact absurd (before last) (Nat.lt_irrefl _)
  have stop : p.offset + c.utf8Size + utf8Length cs = p.offset + utf8Length (c :: cs) :=
    Nat.add_assoc ..
  rw [List.cons_append, tokensFrom_cons, Place.lexeme_code hp.code]
  obtain read | read := h.inCode
  · rw [read]
    dsimp only
    rw [List.take_left, List.drop_left, stop]
    exact ⟨_, behind _, rfl, apart _, rfl⟩
  · rw [read]
    dsimp only
    rw [List.take_left, List.drop_left, stop]
    exact ⟨_, behind _, rfl, apart _, rfl⟩

/-- A token of script code moves the place on to where it ends. -/
theorem tokensFrom_token {p : Place} (hp : p.IsCode) {kind : TokenKind}
    (h : Lexeme.inCode c (cs ++ rest) = (.token kind, cs.length)) (script : kind.isScript = true) :
    ∃ (t : Token) (q : Place), t.kind = kind ∧ t.adjacent = p.touches ∧ q.IsCode ∧
      q.offset = p.offset + utf8Length (c :: cs) ∧ q.touches = true ∧
      tokensFrom p (c :: cs ++ rest) = t :: tokensFrom q rest := by
  let stop := p.offset + c.utf8Size + utf8Length cs
  have region : (p.after (.token kind) stop).region = .code := by
    rw [Place.after, p.regionAfter_eq, hp.code]
    cases kind <;> first | rfl | cases script
  refine ⟨p.token kind stop, p.after (.token kind) stop, rfl, rfl, ⟨region, p.sound_behind kind stop⟩,
    Nat.add_assoc .., p.touches_behind kind stop, ?_⟩
  rw [List.cons_append, tokensFrom_cons, Place.lexeme_code hp.code, h]
  dsimp only
  rw [List.take_left, List.drop_left]

end PageScript
