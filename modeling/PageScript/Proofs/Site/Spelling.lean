import PageScript.Site.Include

/-!
# Proofs/Site/Spelling — paths that are spelled differently

Two paths with the same components are the same to a cache, though they need not be written alike:
`a//b`, `a/./b` and `a/b/` have the components of `a/b`.  All that is computed from a path, its text
apart, depends on the components alone: its normal form, its extension, what it is as a directory,
hence also where directives lead and how files are read under load rules (`Includer.ofReader_congr`).
The text does matter to a reader: a file that is there as `a/b` cannot be read as `a/b/`.  But two
spellings that can both be read hold the same (`Files.isSteady_reader`).
-/

namespace PageScript

namespace Path

/-! ## Components of a text -/

theorem isSame_iff {p q : Path} : p.isSame q = true ↔ p.components = q.components := decide_eq_true_iff

@[simp] theorem isSame_refl (p : Path) : p.isSame p = true := isSame_iff.mpr rfl

/-- What is in front of the parts of a text. -/
def front (chars : List Char) : List Component :=
  if chars.head? = some '/' then [.root]
  else if (pieces chars).head? = some ['.'] then [.here] else []

theorem components_mk (chars : List Char) :
    (⟨String.ofList chars⟩ : Path).components =
      front chars ++ (pieces chars).filterMap Component.ofPiece? := by
  simp only [components, front, String.toList_ofList]

theorem components_eq (p : Path) :
    p.components = front p.text.toList ++ (pieces p.text.toList).filterMap Component.ofPiece? := rfl

theorem pieces_ne_nil : ∀ chars : List Char, pieces chars ≠ []
  | [] => nofun
  | c :: rest => by
    rw [pieces]
    split
    · nofun
    · split <;> nofun

/-- A slash ends a part. -/
theorem pieces_append_slash : ∀ chars rest : List Char,
    pieces (chars ++ '/' :: rest) = pieces chars ++ pieces rest
  | [], rest => by
    rw [List.nil_append, pieces.eq_2, if_pos rfl]
    rfl
  | c :: chars, rest => by
    rw [List.cons_append, pieces, pieces, pieces_append_slash chars rest]
    split
    · rfl
    · cases h : pieces chars with
      | nil => exact absurd h (pieces_ne_nil chars)
      | cons piece further => rfl

/-- What is behind a slash has no part in the front of a text. -/
theorem front_append_slash (chars rest : List Char) :
    front (chars ++ '/' :: rest) = front (chars ++ ['/']) := by
  have pieces : (pieces (chars ++ '/' :: rest)).head? = (pieces (chars ++ ['/'])).head? := by
    rw [pieces_append_slash, pieces_append_slash, List.head?_append, List.head?_append,
      List.head?_eq_some_head (pieces_ne_nil chars), Option.some_or, Option.some_or]
  have first : (chars ++ '/' :: rest).head? = (chars ++ ['/']).head? := by
    cases chars <;> rfl
  rw [front, front, pieces, first]

theorem front_append_slash_of_ne_nil {chars : List Char} (h : chars ≠ []) (rest : List Char) :
    front (chars ++ '/' :: rest) = front chars := by
  have pieces : (pieces (chars ++ '/' :: rest)).head? = (pieces chars).head? := by
    rw [pieces_append_slash, List.head?_append, List.head?_eq_some_head (pieces_ne_nil chars),
      Option.some_or]
  rw [front, front, pieces, List.head?_append, List.head?_eq_some_head h, Option.some_or]

theorem components_eq_nil_iff {p : Path} : p.components = [] ↔ p.text.toList = [] := by
  rw [components_eq]
  cases h : p.text.toList with
  | nil => exact ⟨fun _ => rfl, fun _ => rfl⟩
  | cons c rest =>
    refine ⟨fun empty => ?_, nofun⟩
    obtain ⟨nothing, parts⟩ := List.append_eq_nil_iff.mp empty
    rw [List.filterMap_eq_nil_iff] at parts
    rw [front] at nothing
    split at nothing
    · nomatch nothing
    · rename_i relative
      have other : c ≠ '/' := fun same => relative (same ▸ rfl)
      -- The first part starts with `c`: were it no component, it would be `.` and count in front.
      obtain ⟨piece, further, same⟩ : ∃ piece further, pieces (c :: rest) = (c :: piece) :: further := by
        rw [pieces, if_neg other]
        cases pieces rest with
        | nil => exact ⟨_, _, rfl⟩
        | cons piece further => exact ⟨_, _, rfl⟩
      rw [same] at parts nothing
      have none := parts _ List.mem_cons_self
      split at nothing
      · nomatch nothing
      · rename_i notHere
        have named : ¬(c :: piece = [] ∨ c :: piece = ['.']) := by
          rintro (h | h)
          · nomatch h
          · exact notHere (congrArg some h)
        rw [Component.ofPiece?, if_neg named] at none
        split at none <;> nomatch none

theorem isAbsolute_iff {p : Path} : p.isAbsolute = true ↔ .root ∈ p.components := by
  have parts : .root ∉ (pieces p.text.toList).filterMap Component.ofPiece? := by
    rintro mem
    obtain ⟨piece, -, h⟩ := List.mem_filterMap.mp mem
    rw [Component.ofPiece?] at h
    split at h
    · nomatch h
    · split at h <;> nomatch h
  rw [isAbsolute, decide_eq_true_iff, components_eq, List.mem_append, or_iff_left parts, front]
  split
  · rename_i absolute
    exact iff_of_true absolute List.mem_cons_self
  · rename_i relative
    refine iff_of_false relative ?_
    split <;> simp

/-! ## What depends on the components alone -/

section

variable {p q : Path}

theorem isAbsolute_congr (h : p.isSame q = true) : p.isAbsolute = q.isAbsolute := by
  rw [Bool.eq_iff_iff, isAbsolute_iff, isAbsolute_iff, isSame_iff.mp h]

theorem normalize_congr (h : p.isSame q = true) : p.normalize = q.normalize := by
  rw [normalize, normalize, isSame_iff.mp h]

theorem extension?_congr (h : p.isSame q = true) : p.extension? = q.extension? := by
  rw [extension?, extension?, isSame_iff.mp h]

end

/-! ## Reading from a directory -/

/-- What a relative path adds to the components of a directory. -/
theorem components_join {base p : Path} (nonempty : base.text.toList ≠ [])
    (relative : p.isAbsolute = false) :
    (base.join p).components =
      base.components ++ (pieces p.text.toList).filterMap Component.ofPiece? := by
  -- One slash is between the two, whether or not the directory ends in it.
  suffices h : ∃ chars, (base.join p).text.toList = chars ++ '/' :: p.text.toList ∧
      base.components = front (chars ++ ['/']) ++ (pieces chars).filterMap Component.ofPiece? by
    obtain ⟨chars, text, components⟩ := h
    rw [components_eq, text, components, front_append_slash, pieces_append_slash,
      List.filterMap_append, List.append_assoc]
  rw [join, relative, if_neg nofun]
  split
  · rename_i none
    exact absurd (List.getLast?_eq_none_iff.mp none) nonempty
  · rename_i last
    obtain ⟨chars, text⟩ := List.getLast?_eq_some_iff.mp last
    refine ⟨chars, ?_, ?_⟩
    · rw [String.toList_append, text, List.append_assoc]
      rfl
    · rw [components_eq, text, pieces_append_slash, List.filterMap_append]
      exact congrArg _ (List.append_nil _)
  · refine ⟨base.text.toList, ?_, ?_⟩
    · rw [String.toList_append, String.toList_append, List.append_assoc]
      rfl
    · rw [front_append_slash_of_ne_nil nonempty, components_eq]

theorem isSame_join {base base' : Path} (h : base.isSame base' = true) (p : Path) :
    (base.join p).isSame (base'.join p) = true := by
  by_cases empty : base.text.toList = []
  · have empty' : base'.text.toList = [] := by
      rwa [← components_eq_nil_iff, ← isSame_iff.mp h, components_eq_nil_iff]
    have same : base = base' := by
      cases base; cases base'
      exact congrArg Path.mk (String.toList_inj.mp (empty.trans empty'.symm))
    rw [same, isSame_refl]
  · have nonempty' : base'.text.toList ≠ [] := fun empty' =>
      empty (components_eq_nil_iff.mp ((isSame_iff.mp h).trans (components_eq_nil_iff.mpr empty')))
    cases relative : p.isAbsolute with
    | true => rw [join, join, relative, if_pos rfl, if_pos rfl, isSame_refl]
    | false =>
      rw [isSame_iff, components_join empty relative, components_join nonempty' relative,
        isSame_iff.mp h]

end Path

/-! ## Load rules -/

@[simp] theorem LoadRules.isSame_refl (rules : LoadRules) : rules.isSame rules = true := by
  rw [isSame, Path.isSame_refl, beq_self_eq_true, Bool.and_self]

/-- Rules that count as the same load every file alike. -/
theorem Includer.ofReader_congr (reader : Reader) {rules rules' : LoadRules}
    (h : rules.isSame rules' = true) : ofReader reader rules = ofReader reader rules' := by
  obtain ⟨root, extensions⟩ := Bool.and_eq_true_iff.mp h
  have target (directive : Include) (source : Path) :
      directive.target rules.root source = directive.target rules'.root source := by
    rw [Include.target, Include.target]
    split
    · exact Path.normalize_congr (Path.isSame_join root _)
    · rfl
  have isMarkup (path : Path) : rules.isMarkup path = rules'.isMarkup path := by
    rw [LoadRules.isMarkup, LoadRules.isMarkup, eq_of_beq extensions]
  simp only [ofReader, target, isMarkup]

/-- Two spellings of a path hold the same, where both can be read. -/
def Reader.IsSteady (reader : Reader) : Prop :=
  ∀ p q : Path, p.isSame q = true → ∀ s t, reader.read p = .ok s → reader.read q = .ok t → s = t

/-- A page loads under each spelling of its path that can be read, and to the same statements. -/
theorem Includer.loadPage_of_isSame {reader : Reader} (steady : reader.IsSteady) {rules : LoadRules}
    {p q : Path} (h : p.isSame q = true) {text : String} (reads : reader.read q = .ok text)
    {body : List Stmt} (loads : (ofReader reader rules).loadPage p = .ok body) :
    (ofReader reader rules).loadPage q = .ok body := by
  obtain ⟨content, load, expand⟩ : ∃ content, (ofReader reader rules).load p = .ok content ∧
      (ofReader reader rules).expand p content = .ok body := by
    simp only [loadPage] at loads
    cases load : (ofReader reader rules).load p with
    | error f => rw [load] at loads; nomatch loads
    | ok content => rw [load] at loads; exact ⟨content, rfl, loads⟩
  have load' : (ofReader reader rules).load q = .ok content := by
    simp only [ofReader] at load ⊢
    cases read : reader.read p with
    | error f => rw [read] at load; nomatch load
    | ok text' =>
      obtain rfl : text' = text := steady p q h _ _ read reads
      have markup : rules.isMarkup p = rules.isMarkup q := by
        rw [LoadRules.isMarkup, LoadRules.isMarkup, Path.extension?_congr h]
      rw [read] at load
      simp only [markup, readProgram] at load
      simp only [reads, readProgram]
      split at load
      · exact load
      · nomatch load
  have expand' : (ofReader reader rules).expand q content = .ok body := by
    rw [Includer.expand, ← Path.normalize_congr h]
    exact expand
  rw [loadPage, load']
  exact expand'

/-! ## Files in memory -/

namespace Files

/-- Whether a part of a path leads to another place. -/
def leads (piece : List Char) : Bool := ¬(piece = [] ∨ piece = ['.'])

/-- Parts that lead nowhere can make a walk fail, but not end elsewhere. -/
theorem walk_filter_leads {fs : Files} {node : FileNode} : ∀ {pieces : List (List Char)}
    {place : Option (List (List Char))}, fs.walk place pieces = .ok node →
      fs.walk place (pieces.filter leads) = .ok node
  | [], _, h => h
  | piece :: rest, place, h => by
    by_cases stays : piece = [] ∨ piece = ['.']
    · rw [List.filter_cons_of_neg (by rw [leads, decide_eq_true_iff]; exact not_not_intro stays)]
      refine walk_filter_leads ?_
      cases place <;> rw [walk, if_pos stays] at h <;> split at h
      all_goals first | exact h | nomatch h
    · rw [List.filter_cons_of_pos (by rwa [leads, decide_eq_true_iff])]
      cases place with
      | none =>
        rw [walk, if_neg stays] at h ⊢
        split at h
        · rename_i up
          rw [if_pos up]
          exact walk_filter_leads h
        · nomatch h
      | some names =>
        rw [walk, if_neg stays] at h ⊢
        split at h
        · nomatch h
        · nomatch h
        · split at h
          · rename_i up
            simp only [if_pos up]
            exact walk_filter_leads h
          · rename_i down
            simp only [if_neg down]
            split at h
            · nomatch h
            · rename_i short
              rw [if_neg short]
              split at h
              · nomatch h
              · rename_i there
                rw [if_neg there]
                exact walk_filter_leads h

/-- The part that a component is written as, if it leads somewhere. -/
def pieceOf? : Path.Component → Option (List Char)
  | .up => some ['.', '.']
  | .name chars => some chars
  | .root | .here => none

theorem pieceOf?_ofPiece? (piece : List Char) :
    (Path.Component.ofPiece? piece).bind pieceOf? = Option.guard leads piece := by
  rw [Option.guard, Path.Component.ofPiece?]
  split
  · rename_i stays
    rw [leads, decide_eq_false (not_not_intro stays)]
    rfl
  · rename_i stays
    rw [leads, decide_eq_true stays]
    split
    · rename_i up
      rw [up]
      rfl
    · rfl

/-- The parts that lead somewhere are those of the components. -/
theorem filter_leads_pieces (p : Path) :
    (Path.pieces p.text.toList).filter leads = p.components.filterMap pieceOf? := by
  have front : (Path.front p.text.toList).filterMap pieceOf? = [] := by
    rw [Path.front]
    split
    · rfl
    · split <;> rfl
  rw [Path.components_eq, List.filterMap_append, front, List.nil_append, List.filterMap_filterMap,
    funext pieceOf?_ofPiece?, List.filterMap_eq_filter]

theorem isSteady_reader (fs : Files) : fs.reader.IsSteady := by
  -- What is read is the file at the end of a walk along the parts that lead somewhere.
  have walked {p : Path} {text : String} (reads : fs.reader.read p = .ok text) :
      ∃ content, fs.walk (if p.isAbsolute then none else some []) (p.components.filterMap pieceOf?) =
        .ok (.file content) ∧ String.fromUTF8? content = some text := by
    simp only [reader, read] at reads
    split at reads
    · nomatch reads
    split at reads
    · nomatch reads
    split at reads
    · nomatch reads
    split at reads
    · nomatch reads
    · nomatch reads
    · rename_i content walk
      refine ⟨content, filter_leads_pieces p ▸ walk_filter_leads walk, ?_⟩
      split at reads
      · cases reads
        assumption
      · nomatch reads
  intro p q h s t hs ht
  obtain ⟨content, walk, decodes⟩ := walked hs
  obtain ⟨content', walk', decodes'⟩ := walked ht
  rw [Path.isAbsolute_congr h, Path.isSame_iff.mp h, walk'] at walk
  cases walk
  exact Option.some.inj (decodes.symm.trans decodes')

end Files

end PageScript
