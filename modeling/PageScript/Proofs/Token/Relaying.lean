import Mathlib.Logic.Relation
import PageScript.Proofs.Token.Layout

/-!
# Proofs/Token/Relaying — the same tokens, laid out otherwise

Script code may be written in another case and laid out otherwise: with blanks or a comment in front
of the end of a line, with a carriage return in front of a line feed, or with a continued line in
place of blanks (`Lexeme.Relayout`).  After each of these edits the two sources are made of the same
tokens, with other layout between them, and a token that touched the one before it still does, but
for the end of a line (`Lexeme.Relaid`).  Which tokens a text has, and which of them touch, is read off
it (`Lexeme.Marked`), so that any number of edits leaves it (`Lexeme.Marked.relayout`).
-/

namespace PageScript

namespace Lexeme

variable {c c' : Char} {cs cs' front rest rest' behind piece piece' chars chars' : List Char}

/-! ## Whole places -/

/-- Neither an invalid token nor the end of the region. -/
def IsValid : Lexeme → Prop
  | token kind => kind ≠ .invalid ∧ kind ≠ .closeCode
  | _ => True

/-- Some characters in front of a rest are read as whole places of script code, all of them valid. -/
inductive Reads (rest : List Char) : List Char → Prop
  | nil : Reads rest []
  | cons {c : Char} {cs front : List Char} {lexeme : Lexeme}
      (read : inCode c (cs ++ (front ++ rest)) = (lexeme, cs.length)) (valid : lexeme.IsValid)
      (further : Reads rest front) : Reads rest (c :: cs ++ front)

theorem Reads.one {lexeme : Lexeme} (read : inCode c (front ++ rest) = (lexeme, 0))
    (valid : lexeme.IsValid) (further : Reads rest front) : Reads rest (c :: front) :=
  have whole : Reads rest (c :: [] ++ front) := .cons read valid further
  whole

theorem isScript_of_inCode {kind : TokenKind} {more : Nat}
    (read : inCode c rest = (.token kind, more)) (code : kind ≠ .closeCode) :
    kind.isScript = true := by
  have reading := isReading_inCode c rest
  rw [read] at reading
  cases reading with
  | script h => exact h
  | closeCode => exact absurd rfl code

theorem isLayout_of_inCode {lexeme : Lexeme} (read : inCode c (cs ++ rest) = (lexeme, cs.length))
    (layout : ∀ kind, lexeme ≠ .token kind) : IsLayout rest (c :: cs) := by
  have reading := isReading_inCode c (cs ++ rest)
  rw [read, IsReading] at reading
  dsimp only at reading
  rw [List.take_left, List.drop_left] at reading
  cases lexeme with
  | token kind => exact absurd rfl (layout kind)
  | blank => exact reading
  | remark => exact reading

/-- A place takes characters that are there. -/
theorem le_of_inCode {lexeme : Lexeme} {more : Nat} (read : inCode c rest = (lexeme, more))
    (valid : lexeme.IsValid) : more ≤ rest.length := by
  have layout (h : IsLayout (rest.drop more) (c :: rest.take more)) : more ≤ rest.length := by
    have again := h.inCode
    rw [List.take_append_drop, read] at again
    have length : more = (rest.take more).length := by
      obtain again | again := again <;> exact (Prod.mk.inj again).2
    exact length ▸ List.length_take_le' more rest
  have reading := isReading_inCode c rest
  rw [read] at reading
  cases lexeme with
  | blank => exact layout reading
  | remark => exact layout reading
  | token kind =>
    by_cases quote : c = '"'
    · subst quote
      obtain ⟨text, rfl, body⟩ := exists_string read valid.1
      obtain ⟨cs, behind, rfl, rfl, -⟩ := exists_stringBody body
      rw [List.length_append]
      exact Nat.le_add_right _ _
    · exact (inCode_guarded (.of_alike (.refl rest)) (.refl c) quote read valid.1 valid.2).2

/-- What is behind whole places of a valid source is a valid source. -/
theorem Reads.of_append (hfront : Reads behind front) (h : Reads [] (front ++ behind)) :
    Reads [] behind := by
  induction hfront with
  | nil => exact h
  | @cons c cs front lexeme read _ _ ih =>
    generalize hall : c :: cs ++ front ++ behind = all at h
    cases h with
    | nil => cases hall
    | @cons d ds front' lexeme' read' _ further =>
      obtain ⟨rfl, htail⟩ : c = d ∧ cs ++ front ++ behind = ds ++ front' := List.cons.inj hall
      -- Both look at the same place, so they take as much there.
      rw [List.append_assoc] at htail
      rw [List.append_nil, ← htail, read] at read'
      obtain ⟨rfl, rfl⟩ := List.append_inj htail (Prod.mk.inj read').2
      exact ih further

/-- The place at the front of a valid source, and the source behind it. -/
theorem Reads.uncons {lexeme : Lexeme} (h : Reads [] (c :: (cs ++ behind)))
    (read : inCode c (cs ++ behind) = (lexeme, cs.length)) : lexeme.IsValid ∧ Reads [] behind := by
  generalize hall : c :: (cs ++ behind) = all at h
  cases h with
  | nil => cases hall
  | @cons d ds front lexeme' read' valid further =>
    obtain ⟨rfl, htail⟩ : c = d ∧ cs ++ behind = ds ++ front := List.cons.inj hall
    rw [List.append_nil, ← htail, read] at read'
    obtain ⟨rfl, hlength⟩ := Prod.mk.inj read'
    obtain ⟨rfl, rfl⟩ := List.append_inj htail hlength
    exact ⟨valid, further⟩

theorem Reads.of_layout (layout : IsLayout behind (c :: cs)) (h : Reads [] (c :: (cs ++ behind))) :
    Reads [] behind := by
  obtain read | read := layout.inCode
  · exact (h.uncons read).2
  · exact (h.uncons read).2

theorem Reads.of_blanks : ∀ {blanks : List Char}, Reads [] (blanks ++ behind) →
    (∀ c ∈ blanks, isSpace c = true) → Reads [] behind
  | [], h, _ => h
  | c :: blanks, h, hblanks => by
    obtain ⟨hc, hrest⟩ := List.forall_mem_cons.mp hblanks
    have blank : IsLayout (blanks ++ behind) [c] := .blank hc
    exact of_blanks (of_layout blank h) hrest

theorem Reads.of_lineBreak (h : Reads [] ('\n' :: behind)) : Reads [] behind :=
  have line : inCode '\n' ([] ++ behind) = (.token .lineBreak, 0) := rfl
  (Reads.uncons h line).2

/-! ## Other layout -/

/-- Two texts of the same tokens, the first of which touches what is in front of it in both or in
neither, unless it is the end of a line. -/
inductive Relaid : Bool → Bool → List Char → List Char → Prop
  | nil {touch touch' : Bool} : Relaid touch touch' [] []
  | token {touch touch' : Bool} {c c' : Char} {cs cs' rest rest' : List Char} {kind : TokenKind}
      (script : kind.isScript = true)
      (read : inCode c (cs ++ rest) = (.token kind, cs.length))
      (read' : inCode c' (cs' ++ rest') = (.token kind, cs'.length))
      (marks : touch = touch' ∨ kind = .lineBreak) (further : Relaid true true rest rest') :
      Relaid touch touch' (c :: cs ++ rest) (c' :: cs' ++ rest')
  | left {touch touch' : Bool} {piece rest chars' : List Char} (layout : IsLayout rest piece)
      (further : Relaid false touch' rest chars') : Relaid touch touch' (piece ++ rest) chars'
  | right {touch touch' : Bool} {piece rest' chars : List Char} (layout : IsLayout rest' piece)
      (further : Relaid touch false chars rest') : Relaid touch touch' chars (piece ++ rest')

/-- A comment ends where a valid place starts only if that is the end of a line. -/
theorem endsComment_of_reads {lexeme : Lexeme} (rest' : List Char)
    (read : inCode c (cs ++ (front ++ rest)) = (lexeme, cs.length)) (valid : lexeme.IsValid) :
    EndsComment (c :: cs ++ front ++ rest) → EndsComment (c :: cs ++ front ++ rest') := by
  rintro (h | ⟨tail, h⟩ | ⟨tail, h⟩)
  · cases h
  · obtain ⟨rfl, -⟩ := List.cons.inj h
    exact .inr (.inl ⟨_, rfl⟩)
  · obtain ⟨rfl, htail⟩ : '%' = c ∧ '>' :: tail = cs ++ front ++ rest := List.cons.inj h
    rw [← List.append_assoc, ← htail] at read
    obtain ⟨rfl, -⟩ := Prod.mk.inj read
    exact absurd rfl valid.2

/-- Whole places stay in front of another rest. -/
theorem Reads.relaid {n : Nat} (h : Reads rest front) (guard : Guarded n rest rest')
    (here : ∀ touch, Relaid touch touch rest rest')
    (last : ∀ touch piece, IsLayout rest piece →
      Relaid touch touch (piece ++ rest) (piece ++ rest')) :
    ∀ touch, Relaid touch touch (front ++ rest) (front ++ rest') := by
  induction h with
  | nil => exact here
  | @cons c cs front lexeme read valid further ih =>
    intro touch
    rw [List.append_assoc, List.append_assoc]
    cases lexeme with
    | token kind =>
      have guarded := Guarded.append (.refl front) guard
      have script := isScript_of_inCode read valid.2
      exact .token script read (inCode_again read valid.1 valid.2 guarded) (.inl rfl) (ih true)
    | _ =>
      have layout := isLayout_of_inCode read nofun
      cases further with
      | nil => exact last touch (c :: cs) layout
      | @cons d ds front' lexeme' read' valid' _ =>
        have layout' := layout.exchange (endsComment_of_reads rest' read' valid')
        exact .left layout (.right layout' (ih false))

/-- A valid source is laid out as it is. -/
theorem Reads.self (h : Reads [] chars) (touch : Bool) : Relaid touch touch chars chars := by
  have same := h.relaid (.of_alike (.refl [])) (fun _ => .nil)
    (fun _ piece layout => .left layout (.right layout .nil)) touch
  rwa [List.append_nil] at same

namespace Relaid

variable {touch touch' : Bool}

/-- Before the end of a line the mark does not matter. -/
theorem lineBreak (h : Relaid true true rest rest') :
    Relaid touch touch' ('\n' :: rest) ('\n' :: rest') :=
  have read (rest : List Char) : inCode '\n' ([] ++ rest) = (.token .lineBreak, 0) := rfl
  .token rfl (read rest) (read rest') (.inr rfl) h

/-- Blanks may be put in front of what does not look at the mark. -/
theorem right_blanks (h : ∀ touch', Relaid touch touch' chars chars') :
    ∀ {blanks : List Char}, (∀ c ∈ blanks, isSpace c = true) → ∀ touch',
      Relaid touch touch' chars (blanks ++ chars')
  | [], _, touch' => h touch'
  | c :: blanks, hblanks, touch' => by
    obtain ⟨hc, hrest⟩ := List.forall_mem_cons.mp hblanks
    have blank : IsLayout (blanks ++ chars') [c] := .blank hc
    have behind : Relaid touch touch' chars ([c] ++ (blanks ++ chars')) :=
      .right blank (right_blanks h hrest false)
    exact behind

theorem left_blanks (h : Relaid false touch' chars chars') {blanks : List Char}
    (hblanks : ∀ c ∈ blanks, isSpace c = true) (hne : blanks ≠ []) (touch : Bool) :
    Relaid touch touch' (blanks ++ chars) chars' := by
  induction blanks generalizing touch with
  | nil => exact absurd rfl hne
  | cons c blanks ih =>
    obtain ⟨hc, hrest⟩ := List.forall_mem_cons.mp hblanks
    have further : Relaid false touch' (blanks ++ chars) chars' := by
      cases blanks with
      | nil => exact h
      | cons d blanks => exact ih hrest (List.cons_ne_nil d blanks) false
    have whole : Relaid touch touch' ([c] ++ (blanks ++ chars)) chars' := .left (.blank hc) further
    exact whole

end Relaid

/-! ## Edits -/

/-- What may be put in front of the end of a line: blanks, or a comment. -/
inductive IsPadding : List Char → Prop
  | blanks {blanks : List Char} (h : ∀ c ∈ blanks, isSpace c = true) : IsPadding blanks
  | comment {body : List Char} (hline : '\n' ∉ body) (hregion : ¬ ['%', '>'] <:+: body) :
      IsPadding ('\x27' :: body)

/-- The edits that change the case of letters or the layout. -/
inductive Relayout : List Char → List Char → Prop
  /-- The case of letters, anywhere but in a string. -/
  | recase {front behind cs cs' : List Char} {c c' : Char} {lexeme : Lexeme}
      (hfront : Reads (c :: cs ++ behind) front)
      (read : inCode c (cs ++ behind) = (lexeme, cs.length))
      (plain : ∀ text, lexeme ≠ .token (.string text)) (alike : Alike (c :: cs) (c' :: cs')) :
      Relayout (front ++ (c :: cs ++ behind)) (front ++ (c' :: cs' ++ behind))
  /-- More blanks or a comment in front of the end of a line; behind a comment, more of that. -/
  | pad {front behind padding : List Char} (hfront : Reads ('\n' :: behind) front)
      (hpadding : IsPadding padding) :
      Relayout (front ++ '\n' :: behind) (front ++ (padding ++ '\n' :: behind))
  /-- A carriage return in front of a line feed, wherever that stands. -/
  | feed {front behind : List Char} (h : front.getLast? ≠ some '\r') :
      Relayout (front ++ '\n' :: behind) (front ++ '\r' :: '\n' :: behind)
  /-- A continued line in place of blanks. -/
  | breakLine {front blanks behind : List Char} (hfront : Reads (blanks ++ behind) front)
      (hne : blanks ≠ []) (hblanks : ∀ c ∈ blanks, isSpace c = true) :
      Relayout (front ++ (blanks ++ behind)) (front ++ ' ' :: '_' :: '\n' :: behind)

theorem IsPadding.stops {padding : List Char} (h : IsPadding padding) :
    Stops (padding ++ '\n' :: behind) := by
  cases h with
  | blanks h =>
    cases padding with
    | nil =>
      rintro _ ⟨⟩
      rfl
    | cons c padding =>
      rintro _ ⟨⟩
      rw [isStop, h c List.mem_cons_self]
      rfl
  | comment =>
    rintro _ ⟨⟩
    rfl

theorem stops_lineBreak (behind : List Char) : Stops ('\n' :: behind) := by
  rintro _ ⟨⟩
  rfl

theorem IsPadding.lineBreak_notMem {padding : List Char} (h : IsPadding padding) :
    '\n' ∉ padding := by
  cases h with
  | blanks h => exact fun mem => Bool.false_ne_true (h _ mem)
  | comment hline => exact List.not_mem_cons_of_ne_of_not_mem (by decide) hline

theorem IsPadding.closeCode_notInfix {padding : List Char} (h : IsPadding padding) :
    ¬ ['%', '>'] <:+: padding := by
  cases h with
  | blanks h => exact fun inside => Bool.false_ne_true (h '%' (inside.subset List.mem_cons_self))
  | comment _ hregion =>
    rw [List.infix_cons_iff, not_or]
    refine ⟨fun start => ?_, hregion⟩
    obtain ⟨same, -⟩ := List.cons_prefix_cons.mp start
    cases same

/-- Behind a comment what is put in front of the end of the line is more of the comment. -/
theorem isLayout_padded {mark body padding : List Char}
    (hmark : IsCommentMark (body ++ '\n' :: behind) mark) (hline : '\n' ∉ body)
    (hregion : ¬ ['%', '>'] <:+: body) (h : IsPadding padding) :
    IsLayout ('\n' :: behind) (mark ++ (body ++ padding)) := by
  have stops : Stops (padding ++ '\n' :: behind) := h.stops
  have start (tail : List Char) : padding ++ '\n' :: behind ≠ '>' :: tail := fun same =>
    Bool.false_ne_true (stops '>' (same ▸ rfl))
  have ended : EndsComment ('\n' :: behind) := .inr (.inl ⟨behind, rfl⟩)
  have length : remarkLength (body ++ padding ++ '\n' :: behind) = (body ++ padding).length := by
    rw [List.append_assoc, remarkLength_past hline hregion start,
      remarkLength_append h.lineBreak_notMem h.closeCode_notInfix ended, List.length_append]
  have mark' : IsCommentMark (body ++ padding ++ '\n' :: behind) mark := by
    cases hmark with
    | apostrophe => exact .apostrophe
    | word hfold hends =>
      refine .word hfold ?_
      cases body with
      | cons c body => exact hends
      | nil => exact fun c hc => inner_isWordChar.stop c (h.stops c hc)
  have layout := isLayout_comment mark'
  rwa [length, List.drop_left, List.take_left] at layout

theorem relaid_pad {padding : List Char} (hfront : Reads ('\n' :: behind) front)
    (hbehind : Reads [] behind) (hpadding : IsPadding padding) (touch : Bool) :
    Relaid touch touch (front ++ '\n' :: behind) (front ++ (padding ++ '\n' :: behind)) := by
  have line {touch touch' : Bool} : Relaid touch touch' ('\n' :: behind) ('\n' :: behind) :=
    .lineBreak (hbehind.self true)
  have here (touch : Bool) :
      Relaid touch touch ('\n' :: behind) (padding ++ '\n' :: behind) := by
    cases hpadding with
    | blanks h => exact .right_blanks (fun _ => line) h touch
    | comment hline hregion =>
      exact .right (.comment .apostrophe hline hregion (.inr (.inl ⟨behind, rfl⟩))) line
  refine hfront.relaid (.stop (stops_lineBreak behind) hpadding.stops) here
    (fun touch piece layout => ?_) touch
  have layout' := layout
  cases layout' with
  | blank h => exact .left layout (.right (.blank h) (here false))
  | continuation hgap hending =>
    exact .left layout (.right (.continuation hgap hending) (here false))
  | comment hmark hline hregion =>
    have padded := isLayout_padded hmark hline hregion hpadding
    rw [← List.append_assoc _ padding, List.append_assoc _ _ padding]
    exact .left layout (.right padded line)

theorem relaid_break {blanks : List Char} (hfront : Reads (blanks ++ behind) front)
    (hbehind : Reads [] behind) (hne : blanks ≠ []) (hblanks : ∀ c ∈ blanks, isSpace c = true)
    (touch : Bool) :
    Relaid touch touch (front ++ (blanks ++ behind)) (front ++ ' ' :: '_' :: '\n' :: behind) := by
  obtain ⟨d, ds, rfl⟩ := List.exists_cons_of_ne_nil hne
  have space := hblanks d List.mem_cons_self
  have stops : Stops (d :: ds ++ behind) := by
    rintro _ ⟨⟩
    rw [isStop, space]
    rfl
  have stops' : Stops (' ' :: '_' :: '\n' :: behind) := by
    rintro _ ⟨⟩
    rfl
  have continued : IsLayout behind ('_' :: ([] ++ ['\n'])) := .continuation (List.forall_mem_nil _) (.inl rfl)
  have here (touch : Bool) :
      Relaid touch touch (d :: ds ++ behind) (' ' :: '_' :: '\n' :: behind) :=
    .right (.blank (c := ' ') rfl) (.right continued
      (.left_blanks (hbehind.self false) hblanks hne touch))
  refine hfront.relaid (.stop stops stops') here (fun touch piece layout => ?_) touch
  -- Blanks behind a comment would be more of it.
  have layout' : IsLayout (' ' :: '_' :: '\n' :: behind) piece := by
    refine layout.exchange ?_
    rintro (h | ⟨tail, h⟩ | ⟨tail, h⟩)
    · cases h
    · obtain ⟨rfl, -⟩ := List.cons.inj h
      cases space
    · obtain ⟨rfl, -⟩ := List.cons.inj h
      cases space
  exact .left layout (.right layout' (here false))

/-! ## The case of letters -/

theorem relaid_recase {lexeme : Lexeme} (hfront : Reads (c :: cs ++ behind) front)
    (hbehind : Reads [] behind) (read : inCode c (cs ++ behind) = (lexeme, cs.length))
    (valid : lexeme.IsValid) (plain : ∀ text, lexeme ≠ .token (.string text))
    (alike : Alike (c :: cs) (c' :: cs')) (touch : Bool) :
    Relaid touch touch (front ++ (c :: cs ++ behind)) (front ++ (c' :: cs' ++ behind)) := by
  have all : Alike (c :: cs ++ behind) (c' :: cs' ++ behind) := alike.append (.refl behind)
  obtain ⟨head, tail⟩ := List.forall₂_cons.mp all
  have length : cs'.length = cs.length := (Nat.succ.inj alike.length_eq).symm
  have here (touch : Bool) : Relaid touch touch (c :: cs ++ behind) (c' :: cs' ++ behind) := by
    cases lexeme with
    | token kind =>
      have quote : c ≠ '"' := by
        rintro rfl
        obtain ⟨text, rfl, -⟩ := exists_string read valid.1
        exact plain _ rfl
      obtain ⟨read', -⟩ := inCode_guarded (.of_alike tail) head quote read valid.1 valid.2
      rw [← length] at read'
      exact .token (isScript_of_inCode read valid.2) read read' (.inl rfl) (hbehind.self true)
    | _ =>
      have layout := isLayout_of_inCode read nofun
      exact .left layout (.right (layout.recase alike) (hbehind.self false))
  refine hfront.relaid (.of_alike all) here (fun touch piece layout => ?_) touch
  exact .left layout (.right (layout.exchange (EndsComment.recase all)) (here false))

/-! ## The ends of lines -/

/-- A layout over a line feed is a continued line. -/
theorem exists_gap {more : List Char} (h : IsLayout rest (c :: (front ++ '\n' :: more))) :
    c = '_' ∧ more = [] ∧ ((∀ c ∈ front, isGap c = true) ∨ front.getLast? = some '\r') := by
  generalize hpiece : c :: (front ++ '\n' :: more) = piece at h
  have inside : '\n' ∈ piece := hpiece ▸
    List.mem_cons_of_mem c (List.mem_append_right front List.mem_cons_self)
  cases h with
  | blank h =>
    obtain rfl := List.mem_singleton.mp inside
    cases h
  | @comment mark body hmark hline =>
    refine absurd ((List.mem_append.mp inside).resolve_right hline) ?_
    cases hmark with
    | apostrophe => decide
    | word hfold =>
      obtain ⟨-, -, -, -, word⟩ := exists_rem hfold
      exact fun mem => Bool.false_ne_true (word _ mem)
  | @continuation gap ending hgap hending =>
    obtain ⟨rfl, hgap'⟩ := List.cons.inj hpiece
    have first {gap : List Char} (h : '\n' ∉ gap) (same : front ++ '\n' :: more = gap ++ ['\n']) :
        front = gap ∧ more = [] := by
      obtain ⟨tail, rfl, htail⟩ | ⟨tail, rfl, htail⟩ := List.append_eq_append_iff.mp same
      · cases tail with
        | nil => exact ⟨(List.append_nil front).symm, (List.cons.inj htail).2⟩
        | cons d tail =>
          obtain ⟨rfl, -⟩ := List.cons.inj htail
          exact absurd (List.mem_append_right front List.mem_cons_self) h
      · cases tail with
        | nil => exact ⟨List.append_nil gap, (List.cons.inj htail).2.symm⟩
        | cons d tail =>
          obtain ⟨-, htail⟩ := List.cons.inj htail
          exact absurd htail.symm (List.append_ne_nil_of_right_ne_nil _ (List.cons_ne_nil _ _))
    have gapLine : '\n' ∉ gap := fun mem => Bool.false_ne_true (hgap _ mem)
    obtain rfl | rfl := hending
    · obtain ⟨rfl, rfl⟩ := first gapLine hgap'
      exact ⟨rfl, rfl, .inl hgap⟩
    · rw [show gap ++ ['\r', '\n'] = gap ++ ['\r'] ++ ['\n'] by rw [List.append_assoc]; rfl] at hgap'
      obtain ⟨rfl, rfl⟩ := first (by simpa using gapLine) hgap'
      exact ⟨rfl, rfl, .inr List.getLast?_concat⟩

/-- A line feed is the end of a line, unless it ends a continued line. -/
theorem Reads.locate (h : Reads [] chars) (hchars : chars = front ++ '\n' :: behind) :
    Reads ('\n' :: behind) front ∨
      ∃ front' gap, front = front' ++ '_' :: gap ∧ Reads ('_' :: (gap ++ '\n' :: behind)) front' ∧
        ((∀ c ∈ gap, isGap c = true) ∨ gap.getLast? = some '\r') := by
  induction h generalizing front with
  | nil => exact absurd hchars.symm (List.append_ne_nil_of_right_ne_nil _ (List.cons_ne_nil _ _))
  | @cons c cs further lexeme read valid _ ih =>
    rw [List.append_nil] at read
    obtain ⟨front, rfl, rfl⟩ | ⟨piece, hpiece, hfurther⟩ := List.append_eq_append_iff.mp hchars
    · -- The line feed stands behind the place.
      obtain inside | ⟨front', gap, rfl, inside, hgap⟩ := ih rfl
      · exact .inl (.cons read valid inside)
      · refine .inr ⟨c :: cs ++ front', gap, List.append_assoc .. |>.symm, .cons ?_ valid inside, hgap⟩
        rwa [List.append_assoc, List.cons_append] at read
    · -- The line feed stands in the place, or right behind it.
      cases piece with
      | nil =>
        rw [List.append_nil] at hpiece
        subst hpiece
        have whole : Reads ('\n' :: behind) (c :: cs ++ []) := .cons (hfurther ▸ read) valid .nil
        rw [List.append_nil] at whole
        exact .inl whole
      | cons d more =>
        obtain ⟨rfl, rfl⟩ : '\n' = d ∧ behind = more ++ further := List.cons.inj hfurther
        cases front with
        | nil => exact .inl .nil
        | cons d front =>
          obtain ⟨rfl, rfl⟩ : c = d ∧ cs = front ++ '\n' :: more := List.cons.inj hpiece
          have layout (kind : TokenKind) : lexeme ≠ .token kind := by
            rintro rfl
            rw [List.append_assoc] at read
            have le := le_of_lineBreak read valid.1 valid.2
            rw [List.length_append, List.length_cons] at le
            omega
          obtain ⟨rfl, -, hgap⟩ := exists_gap (isLayout_of_inCode read layout)
          exact .inr ⟨[], front, rfl, .nil, hgap⟩

theorem relaid_continued {gap : List Char} (hgap : ∀ c ∈ gap, isGap c = true)
    (hfront : Reads ('_' :: (gap ++ '\n' :: behind)) front)
    (h : Reads [] ('_' :: (gap ++ '\n' :: behind))) (touch : Bool) :
    Relaid touch touch (front ++ '_' :: (gap ++ '\n' :: behind))
      (front ++ '_' :: (gap ++ '\r' :: '\n' :: behind)) := by
  have line : IsLayout behind ('_' :: (gap ++ ['\n'])) := .continuation hgap (.inl rfl)
  have feed : IsLayout behind ('_' :: (gap ++ ['\r', '\n'])) := .continuation hgap (.inr rfl)
  have apart (ending : List Char) :
      '_' :: (gap ++ (ending ++ behind)) = '_' :: (gap ++ ending) ++ behind := by
    rw [List.cons_append, List.append_assoc]
  have hbehind : Reads [] behind := by
    refine .of_layout line ?_
    rwa [List.append_assoc]
  have here (touch : Bool) : Relaid touch touch ('_' :: (gap ++ (['\n'] ++ behind)))
      ('_' :: (gap ++ (['\r', '\n'] ++ behind))) := by
    rw [apart, apart]
    exact .left line (.right feed (hbehind.self false))
  have stops : Stops ('\r' :: '\n' :: behind) := by
    rintro _ ⟨⟩
    rfl
  have guarded := Guarded.append (.refl ('_' :: gap)) (.stop (stops_lineBreak behind) stops)
  refine hfront.relaid guarded here (fun touch piece layout => ?_) touch
  have layout' : IsLayout ('_' :: (gap ++ '\r' :: '\n' :: behind)) piece := by
    refine layout.exchange ?_
    rintro (h | ⟨_, h⟩ | ⟨_, h⟩) <;> cases h
  exact .left layout (.right layout' (here false))

theorem relaid_feed (h : Reads [] (front ++ '\n' :: behind)) (plain : front.getLast? ≠ some '\r')
    (touch : Bool) :
    Relaid touch touch (front ++ '\n' :: behind) (front ++ '\r' :: '\n' :: behind) := by
  obtain hfront | ⟨front, gap, rfl, hfront, hgap⟩ := h.locate rfl
  · have padding : IsPadding ['\r'] := .blanks (List.forall_mem_singleton.mpr rfl)
    exact relaid_pad hfront (hfront.of_append h).of_lineBreak padding touch
  · replace hgap := hgap.resolve_right fun last => plain <| by
      rw [List.getLast?_append, List.getLast?_cons, last]
      rfl
    rw [List.append_assoc] at h
    rw [List.append_assoc, List.append_assoc]
    exact relaid_continued hgap hfront (hfront.of_append h) touch

/-- **An edit leaves the tokens** of a valid source. -/
theorem Relayout.relaid (edit : Relayout chars chars') (h : Reads [] chars) (touch : Bool) :
    Relaid touch touch chars chars' := by
  cases edit with
  | recase hfront read plain alike =>
    obtain ⟨valid, hbehind⟩ := (hfront.of_append h).uncons read
    exact relaid_recase hfront hbehind read valid plain alike touch
  | pad hfront hpadding =>
    exact relaid_pad hfront (hfront.of_append h).of_lineBreak hpadding touch
  | feed plain => exact relaid_feed h plain touch
  | breakLine hfront hne hblanks =>
    exact relaid_break hfront ((hfront.of_append h).of_blanks hblanks) hne hblanks touch

/-! ## Marks -/

/-- The tokens of a text, each with whether it touches what is in front of it; for the first of them
that is given. -/
inductive Marked : Bool → List Char → List (TokenKind × Bool) → Prop
  | nil {touch : Bool} : Marked touch [] []
  | token {touch : Bool} {c : Char} {cs rest : List Char} {kind : TokenKind}
      {marks : List (TokenKind × Bool)} (script : kind.isScript = true)
      (read : inCode c (cs ++ rest) = (.token kind, cs.length)) (further : Marked true rest marks) :
      Marked touch (c :: cs ++ rest) ((kind, touch) :: marks)
  | layout {touch : Bool} {piece rest : List Char} {marks : List (TokenKind × Bool)}
      (layout : IsLayout rest piece) (further : Marked false rest marks) :
      Marked touch (piece ++ rest) marks

/-- The same kind of token, with the same mark unless it is the end of a line. -/
def LikeMark (m m' : TokenKind × Bool) : Prop := m'.1 = m.1 ∧ (m.2 = m'.2 ∨ m.1 = .lineBreak)

theorem LikeMark.refl (m : TokenKind × Bool) : LikeMark m m := ⟨rfl, .inl rfl⟩

theorem LikeMark.trans {m m' m'' : TokenKind × Bool} (h : LikeMark m m') (h' : LikeMark m' m'') :
    LikeMark m m'' := by
  obtain ⟨kind, marks⟩ := h
  obtain ⟨kind', marks'⟩ := h'
  refine ⟨kind'.trans kind, ?_⟩
  obtain marks | line := marks
  · obtain marks' | line := marks'
    · exact .inl (marks.trans marks')
    · exact .inr (kind ▸ line)
  · exact .inr line

/-- None of the tokens is invalid, and none ends the region. -/
def AreValid (marks : List (TokenKind × Bool)) : Prop := ∀ m ∈ marks, IsValid (.token m.1)

section Marked

variable {touch touch' : Bool} {marks marks' : List (TokenKind × Bool)}

theorem Relaid.marked (h : Relaid touch touch' chars chars') :
    ∃ marks marks', Marked touch chars marks ∧ Marked touch' chars' marks' ∧
      List.Forall₂ LikeMark marks marks' := by
  induction h with
  | nil => exact ⟨[], [], .nil, .nil, .nil⟩
  | @token touch touch' _ _ _ _ _ _ kind script read read' same _ ih =>
    obtain ⟨marks, marks', marked, marked', like⟩ := ih
    exact ⟨(kind, touch) :: marks, (kind, touch') :: marks', .token script read marked,
      .token script read' marked', .cons ⟨rfl, same⟩ like⟩
  | left layout _ ih =>
    obtain ⟨marks, marks', marked, marked', like⟩ := ih
    exact ⟨marks, marks', .layout layout marked, marked', like⟩
  | right layout _ ih =>
    obtain ⟨marks, marks', marked, marked', like⟩ := ih
    exact ⟨marks, marks', marked, .layout layout marked', like⟩

/-- What is found at the front of a text decides on its marks. -/
theorem Marked.uncons {lexeme : Lexeme} (h : Marked touch (c :: (cs ++ rest)) marks)
    (read : inCode c (cs ++ rest) = (lexeme, cs.length)) :
    (∃ kind further, lexeme = .token kind ∧ marks = (kind, touch) :: further ∧
      Marked true rest further) ∨ (∀ kind, lexeme ≠ .token kind) ∧ Marked false rest marks := by
  generalize hall : c :: (cs ++ rest) = all at h
  cases h with
  | nil => cases hall
  | @token _ d ds rest' kind further script read' marked =>
    obtain ⟨rfl, htail⟩ : c = d ∧ cs ++ rest = ds ++ rest' := List.cons.inj hall
    rw [← htail, read] at read'
    obtain ⟨rfl, length⟩ := Prod.mk.inj read'
    obtain ⟨rfl, rfl⟩ := List.append_inj htail length
    exact .inl ⟨kind, further, rfl, rfl, marked⟩
  | @layout _ piece rest' _ layout marked =>
    obtain ⟨d, ds, rfl⟩ := List.exists_cons_of_ne_nil layout.ne_nil
    obtain ⟨rfl, htail⟩ : c = d ∧ cs ++ rest = ds ++ rest' := List.cons.inj hall
    have same : (∀ kind, lexeme ≠ .token kind) ∧ cs.length = ds.length := by
      obtain read' | read' := layout.inCode <;> rw [← htail, read] at read' <;>
        obtain ⟨rfl, length⟩ := Prod.mk.inj read' <;> exact ⟨nofun, length⟩
    obtain ⟨rfl, rfl⟩ := List.append_inj htail same.2
    exact .inr ⟨same.1, marked⟩

/-- A text has no more than one list of marks. -/
theorem Marked.unique (h : Marked touch chars marks) (h' : Marked touch chars marks') :
    marks = marks' := by
  induction h generalizing marks' with
  | nil =>
    generalize hall : ([] : List Char) = all at h'
    cases h' with
    | nil => rfl
    | token => cases hall
    | layout layout => exact absurd hall.symm (List.append_ne_nil_of_left_ne_nil layout.ne_nil _)
  | token _ read _ ih =>
    obtain ⟨_, further, ⟨⟩, rfl, marked⟩ | ⟨other, -⟩ := h'.uncons read
    · rw [ih marked]
    · exact absurd rfl (other _)
  | layout layout _ ih =>
    obtain ⟨c, cs, rfl⟩ := List.exists_cons_of_ne_nil layout.ne_nil
    obtain read | read := layout.inCode <;>
      obtain ⟨_, _, ⟨⟩, -⟩ | ⟨-, marked⟩ := h'.uncons read <;> exact ih marked

theorem Reads.marked (h : Reads [] chars) (touch : Bool) :
    ∃ marks, Marked touch chars marks ∧ AreValid marks := by
  induction h generalizing touch with
  | nil => exact ⟨[], .nil, List.forall_mem_nil _⟩
  | @cons c cs front lexeme read valid _ ih =>
    rw [List.append_nil] at read
    cases lexeme with
    | token kind =>
      obtain ⟨marks, marked, valids⟩ := ih true
      exact ⟨(kind, touch) :: marks, .token (isScript_of_inCode read valid.2) read marked,
        List.forall_mem_cons.mpr ⟨valid, valids⟩⟩
    | _ =>
      obtain ⟨marks, marked, valids⟩ := ih false
      exact ⟨marks, .layout (isLayout_of_inCode read nofun) marked, valids⟩

theorem Marked.reads (h : Marked touch chars marks) (valid : AreValid marks) : Reads [] chars := by
  induction h with
  | nil => exact .nil
  | token _ read _ ih =>
    obtain ⟨head, tail⟩ := List.forall_mem_cons.mp valid
    exact .cons (by rwa [List.append_nil]) head (ih tail)
  | @layout _ piece rest _ layout _ ih =>
    obtain ⟨c, cs, rfl⟩ := List.exists_cons_of_ne_nil layout.ne_nil
    have place {lexeme : Lexeme} (read : inCode c (cs ++ rest) = (lexeme, cs.length))
        (valid' : lexeme.IsValid) : Reads [] (c :: cs ++ rest) :=
      .cons (by rwa [List.append_nil]) valid' (ih valid)
    obtain read | read := layout.inCode
    · exact place read trivial
    · exact place read trivial

theorem AreValid.like (h : AreValid marks) (like : List.Forall₂ LikeMark marks marks') :
    AreValid marks' := by
  induction like with
  | nil => exact h
  | cons head _ ih =>
    obtain ⟨valid, valids⟩ := List.forall_mem_cons.mp h
    exact List.forall_mem_cons.mpr ⟨head.1 ▸ valid, ih valids⟩

end Marked

end Lexeme

end PageScript
