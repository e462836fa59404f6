import Mathlib.Data.List.DropRight
import PageScript.Position
import PageScript.Proofs.Token.Tiling

/-!
# Proofs/Text/Positions — positions are exact

The characters in front of a place tell its line and its column (`Position.behind`): the line feeds
among them are counted, and so are the characters behind the last of them.  A line table comes to the
same numbers from byte offsets (`positionIn_eq`).  Its row of line starts splits where the source does
(`laterLineStarts_append`), so that the starts at or before a boundary are those of the characters in
front of it, and halving the row ends at the last of them (`LineTable.indexAt_eq`).  Positions follow one
another as the characters do (`Position.utf8Length_lt_iff`).
-/

namespace PageScript

/-! ## The search -/

namespace Sought

/-- The numbers of a row grow. -/
def Grows (row : Array Nat) : Prop :=
  ∀ i j, i < j → j < row.size → row.getD i 0 < row.getD j 0

variable {row : Array Nat} {base size : Nat}

/-- Halving some places ends at one of them: at the first one, or at one that holds no greater number.
All places behind it hold greater ones. -/
theorem narrow_spec (number : Nat) (grows : Grows row) (fits : base + size ≤ row.size)
    (nonempty : 0 < size) :
    base ≤ narrow row number base size ∧ narrow row number base size < base + size ∧
      (narrow row number base size = base ∨ row.getD (narrow row number base size) 0 ≤ number) ∧
      ∀ j, narrow row number base size < j → j < base + size → number < row.getD j 0 := by
  fun_induction narrow row number base size with
  | case1 base size several half greater ih =>
    obtain ⟨lower, upper, here, behind⟩ := ih (by omega) (by omega)
    refine ⟨lower, by omega, here, fun j hj hlt => ?_⟩
    obtain hkept | hleft := Nat.lt_or_ge j (base + (size - half))
    · exact behind j hj hkept
    · -- What is left out starts at or behind the middle, where the numbers are greater.
      obtain rfl | hmiddle := Nat.eq_or_lt_of_le (show base + half ≤ j by omega)
      · exact greater
      · exact greater.trans (grows _ _ hmiddle (by omega))
  | case2 base size several half notGreater ih =>
    obtain ⟨lower, upper, here, behind⟩ := ih (by omega) (by omega)
    refine ⟨by omega, by omega, .inr ?_, fun j hj hlt => behind j hj (by omega)⟩
    obtain hfirst | hle := here
    · rw [hfirst]
      exact Nat.le_of_not_lt notGreater
    · exact hle
  | case3 base size single =>
    exact ⟨Nat.le_refl _, by omega, .inl rfl, fun j hj hlt => by omega⟩

end Sought

/-- The line of an offset is the last one that starts at or before it. -/
theorem LineTable.indexAt_eq {t : LineTable} {offset i : Nat} (grows : Sought.Grows t.starts)
    (hi : i < t.size) (hle : t.starts.getD i 0 ≤ offset)
    (hlt : ∀ j, i < j → j < t.size → offset < t.starts.getD j 0) : t.indexAt offset = i := by
  have nonempty : 0 < t.starts.size := Nat.zero_lt_of_lt hi
  obtain ⟨-, upper, here, behind⟩ :=
    Sought.narrow_spec offset grows (Nat.le_of_eq (Nat.zero_add t.starts.size)) nonempty
  rw [Nat.zero_add] at upper behind
  have same : Sought.narrow t.starts offset 0 t.starts.size = i := by
    obtain before | same | after := Nat.lt_trichotomy (Sought.narrow t.starts offset 0 t.starts.size) i
    · exact absurd (behind i before hi) (Nat.not_lt.mpr hle)
    · exact same
    · obtain first | holds := here
      · omega
      · exact absurd (hlt _ after upper) (Nat.not_lt.mpr holds)
  have full : t.starts.isEmpty = false := by
    rw [Array.isEmpty_eq_false_iff]
    exact Array.ne_empty_of_size_pos nonempty
  rw [indexAt, Sought.search, full, if_neg Bool.false_ne_true]
  simp only [same]
  obtain equal | less := Nat.eq_or_lt_of_le hle
  · rw [if_pos equal]
  · rw [if_neg (Nat.ne_of_lt less), if_pos less]
    exact Nat.add_sub_cancel i 1

/-! ## Line starts -/

theorem laterLineStarts_append (offset : Nat) (chars more : List Char) :
    laterLineStarts offset (chars ++ more) =
      laterLineStarts offset chars ++ laterLineStarts (offset + utf8Length chars) more := by
  induction chars generalizing offset with
  | nil => rfl
  | cons c chars ih =>
    rw [List.cons_append, laterLineStarts, laterLineStarts, utf8Length, ih, ← Nat.add_assoc]
    split <;> rfl

/-- One line starts behind each line feed. -/
theorem length_laterLineStarts (offset : Nat) (chars : List Char) :
    (laterLineStarts offset chars).length = chars.count '\n' := by
  induction chars generalizing offset with
  | nil => rfl
  | cons c chars ih =>
    rw [laterLineStarts]
    split
    case isTrue h => rw [List.length_cons, ih, h, List.count_cons_self]
    case isFalse h => rw [ih, List.count_cons_of_ne h]

variable {offset : Nat} {chars : List Char}

/-- Lines start behind the start of the text and no later than its end. -/
theorem bounds_of_mem_laterLineStarts (fits : offset + utf8Length chars ≤ Span.limit) {start : Nat}
    (h : start ∈ laterLineStarts offset chars) :
    offset < start ∧ start ≤ offset + utf8Length chars := by
  induction chars generalizing offset with
  | nil => cases h
  | cons c chars ih =>
    have wide := c.utf8Size_pos
    rw [utf8Length, ← Nat.add_assoc] at fits ⊢
    have later (h : start ∈ laterLineStarts (offset + c.utf8Size) chars) :
        offset < start ∧ start ≤ offset + c.utf8Size + utf8Length chars := by
      have := ih fits h
      omega
    rw [laterLineStarts] at h
    split at h
    · obtain rfl | h := List.mem_cons.mp h
      · omega
      · exact later h
    · exact later h

theorem pairwise_laterLineStarts (fits : offset + utf8Length chars ≤ Span.limit) :
    (laterLineStarts offset chars).Pairwise (· < ·) := by
  induction chars generalizing offset with
  | nil => exact .nil
  | cons c chars ih =>
    rw [utf8Length, ← Nat.add_assoc] at fits
    rw [laterLineStarts]
    split
    · refine List.pairwise_cons.mpr ⟨fun start hstart => ?_, ih fits⟩
      exact Nat.lt_of_le_of_lt (Nat.min_le_left _ _) (bounds_of_mem_laterLineStarts fits hstart).1
    · exact ih fits

/-- The characters of the last line of a text. -/
def lastLine (chars : List Char) : List Char := chars.rtakeWhile (· ≠ '\n')

theorem lastLine_concat (chars : List Char) (c : Char) :
    lastLine (chars ++ [c]) = if c = '\n' then [] else lastLine chars ++ [c] := by
  rw [lastLine, List.rtakeWhile_concat]
  by_cases h : c = '\n' <;> simp [h, lastLine]

/-- The last line of a text starts behind what the text has in front of it. -/
theorem getLast?_lineStarts (fits : utf8Length chars ≤ Span.limit) :
    (0 :: laterLineStarts 0 chars).getLast? =
      some (utf8Length (chars.rdropWhile (· ≠ '\n'))) := by
  induction chars using List.reverseRecOn with
  | nil => rfl
  | append_singleton chars c ih =>
    rw [utf8Length_append] at fits
    have step : laterLineStarts 0 (chars ++ [c]) = laterLineStarts 0 chars ++
        if c = '\n' then [utf8Length (chars ++ [c])] else [] := by
      rw [laterLineStarts_append, utf8Length_append, Nat.zero_add]
      simp only [laterLineStarts, utf8Length, Nat.add_zero] at fits ⊢
      rw [Nat.min_eq_left fits]
    rw [step, ← List.cons_append]
    by_cases h : c = '\n'
    · rw [if_pos h, List.getLast?_concat, List.rdropWhile_concat_neg _ _ _ (by simp [h])]
    · rw [if_neg h, List.append_nil, List.rdropWhile_concat_pos _ _ _ (by simp [h])]
      exact ih (Nat.le_of_add_right_le fits)

/-! ## Characters between two offsets -/

theorem dropBytes?_append (chars rest : List Char) :
    dropBytes? (chars ++ rest) (utf8Length chars) = some rest := by
  induction chars with
  | nil => cases rest <;> rfl
  | cons c chars ih =>
    obtain ⟨bytes, hbytes⟩ := Nat.exists_eq_succ_of_ne_zero
      (Nat.ne_of_gt (Nat.add_pos_left c.utf8Size_pos (utf8Length chars)))
    rw [List.cons_append, utf8Length, hbytes, dropBytes?, ← Nat.succ_eq_add_one, ← hbytes,
      if_pos (Nat.le_add_right _ _), Nat.add_sub_cancel_left, ih]

theorem charsBetween?_append (front line rest : List Char) :
    charsBetween? (front ++ line ++ rest) (utf8Length front) (utf8Length (front ++ line)) =
      some line.length := by
  rw [charsBetween?, utf8Length_append, if_pos (Nat.le_add_right _ _), List.append_assoc,
    Nat.add_sub_cancel_left]
  simp [dropBytes?_append]

/-! ## Positions -/

theorem ordinal_of_le {count : Nat} (h : count ≤ Span.limit) :
    ordinal count = wrappingAdd count 1 := by
  rw [ordinal, if_pos h]

theorem wrappingAdd_of_lt {a b : Nat} (h : a + b ≤ Span.limit) : wrappingAdd a b = a + b :=
  Nat.mod_eq_of_lt (Nat.lt_succ_of_le h)

/-- From the number of a count one comes back to the count, also where the number has wrapped. -/
theorem countOf_wrappingAdd_one {count : Nat} (h : count ≤ Span.limit) :
    countOf (wrappingAdd count 1) = count := by
  rw [countOf, wrappingAdd, wrappingAdd, Nat.mod_add_mod, Nat.add_assoc, Nat.add_comm 1,
    Nat.add_mod_right]
  exact Nat.mod_eq_of_lt (Nat.lt_succ_of_le h)

namespace Position

/-- The position behind some characters of a source, by counting them. -/
def behind (chars : List Char) : Position :=
  ⟨chars.count '\n' + 1, (lastLine chars).length + 1⟩

/-- The position with its two numbers held in 32 bits. -/
def held (p : Position) : Position := ⟨wrappingAdd p.line 0, wrappingAdd p.column 0⟩

/-- The order of reading: by lines, and by columns on one line. -/
instance : LT Position := ⟨fun p q => p.line < q.line ∨ p.line = q.line ∧ p.column < q.column⟩

theorem lt_def {p q : Position} :
    p < q ↔ p.line < q.line ∨ p.line = q.line ∧ p.column < q.column := Iff.rfl

theorem lt_trans {p q r : Position} (h : p < q) (k : q < r) : p < r := by
  rw [lt_def] at *
  omega

theorem lt_irrefl (p : Position) : ¬ p < p := by
  rw [lt_def]
  omega

theorem behind_concat (chars : List Char) (c : Char) : behind (chars ++ [c]) =
    if c = '\n' then ⟨(behind chars).line + 1, 1⟩
    else ⟨(behind chars).line, (behind chars).column + 1⟩ := by
  rw [behind, lastLine_concat, List.count_append, List.count_singleton]
  by_cases h : c = '\n' <;> simp [h, behind]

/-- One more character moves the position on. -/
theorem behind_lt_concat (chars : List Char) (c : Char) : behind chars < behind (chars ++ [c]) := by
  rw [behind_concat, lt_def]
  by_cases h : c = '\n' <;> simp [h]

theorem behind_lt_append (chars : List Char) {more : List Char} (h : more ≠ []) :
    behind chars < behind (chars ++ more) := by
  induction more using List.reverseRecOn with
  | nil => exact absurd rfl h
  | append_singleton more c ih =>
    rw [← List.append_assoc]
    obtain rfl | hmore := eq_or_ne more []
    · rw [List.append_nil]
      exact behind_lt_concat _ _
    · exact lt_trans (ih hmore) (behind_lt_concat _ _)

section Boundaries

variable {source before before' : List Char} (h : before <+: source) (h' : before' <+: source)

include h h'

/-- Boundaries with one offset are the same. -/
theorem eq_of_utf8Length_eq (same : utf8Length before = utf8Length before') : before = before' := by
  have nothing {chars more : List Char} (same : utf8Length chars = utf8Length (chars ++ more)) :
      more = [] := by
    by_contra longer
    have := utf8Length_pos longer
    rw [utf8Length_append] at same
    omega
  obtain ⟨more, rfl⟩ | ⟨more, rfl⟩ := List.prefix_or_prefix_of_prefix h h'
  · rw [nothing same, List.append_nil]
  · rw [nothing same.symm, List.append_nil]

theorem behind_lt_behind (less : utf8Length before < utf8Length before') :
    behind before < behind before' := by
  obtain ⟨more, rfl⟩ | ⟨more, rfl⟩ := List.prefix_or_prefix_of_prefix h h'
  · refine behind_lt_append before ?_
    rintro rfl
    rw [List.append_nil] at less
    exact Nat.lt_irrefl _ less
  · rw [utf8Length_append] at less
    omega

/-- Different boundaries have different positions. -/
theorem utf8Length_eq_iff : utf8Length before = utf8Length before' ↔ behind before = behind before' := by
  refine ⟨fun same => congrArg behind (eq_of_utf8Length_eq h h' same), fun same => ?_⟩
  obtain less | equal | greater := Nat.lt_trichotomy (utf8Length before) (utf8Length before')
  · exact absurd (same ▸ behind_lt_behind h h' less) (lt_irrefl _)
  · exact equal
  · exact absurd (same ▸ behind_lt_behind h' h greater) (lt_irrefl _)

/-- Boundaries stand in the order of their positions. -/
theorem utf8Length_lt_iff : utf8Length before < utf8Length before' ↔ behind before < behind before' := by
  refine ⟨behind_lt_behind h h', fun less => ?_⟩
  obtain less' | equal | greater := Nat.lt_trichotomy (utf8Length before) (utf8Length before')
  · exact less'
  · exact absurd ((utf8Length_eq_iff h h').mp equal ▸ less) (lt_irrefl _)
  · exact absurd (lt_trans less (behind_lt_behind h' h greater)) (lt_irrefl _)

end Boundaries

/-- A character moves the two numbers on by no more than its bytes, so they never outgrow the text. -/
theorem line_add_column_behind_le (chars : List Char) :
    (behind chars).line + (behind chars).column ≤ utf8Length chars + 2 := by
  induction chars using List.reverseRecOn with
  | nil => exact Nat.le_refl _
  | append_singleton chars c ih =>
    have wide := c.utf8Size_pos
    rw [behind_concat, utf8Length_append, utf8Length, utf8Length]
    have column : 1 ≤ (behind chars).column := Nat.le_add_left 1 _
    split <;> simp only <;> omega

end Position

namespace LineTable

variable {source : String} {before rest : List Char}

theorem utf8Length_add_of_split (split : before ++ rest = source.toList) :
    utf8Length before + utf8Length rest = source.utf8ByteSize := by
  rw [← utf8Length_append, split, utf8Length_toList]

theorem ofSource_starts (split : before ++ rest = source.toList) :
    (ofSource source).starts =
      (0 :: laterLineStarts 0 before ++ laterLineStarts (utf8Length before) rest).toArray := by
  rw [ofSource, ← split, laterLineStarts_append, Nat.zero_add, List.cons_append]

theorem grows_starts (fits : source.utf8ByteSize ≤ Span.limit) :
    Sought.Grows (ofSource source).starts := by
  rw [← utf8Length_toList, ← Nat.zero_add (utf8Length _)] at fits
  have row : (0 :: laterLineStarts 0 source.toList).Pairwise (· < ·) :=
    List.pairwise_cons.mpr ⟨fun start hstart => (bounds_of_mem_laterLineStarts fits hstart).1,
      pairwise_laterLineStarts fits⟩
  intro i j hij (hj : j < (0 :: laterLineStarts 0 source.toList).length)
  rw [ofSource, Array.getD_eq_getD_getElem?, Array.getD_eq_getD_getElem?, List.getElem?_toArray,
    List.getElem?_toArray, List.getElem?_eq_getElem hj, List.getElem?_eq_getElem (hij.trans hj)]
  exact List.pairwise_iff_getElem.mp row i j (hij.trans hj) hj hij

/-- The line with as many line feeds in front of it as some characters in front of a boundary starts
where their last line does. -/
theorem starts_getD_count (split : before ++ rest = source.toList)
    (fits : utf8Length before ≤ Span.limit) :
    (ofSource source).starts.getD (before.count '\n') 0 =
      utf8Length (before.rdropWhile (· ≠ '\n')) := by
  have last := getLast?_lineStarts fits
  rw [List.getLast?_eq_getElem?, List.length_cons, Nat.add_sub_cancel, length_laterLineStarts] at last
  rw [ofSource_starts split, Array.getD_eq_getD_getElem?, List.getElem?_toArray,
    List.getElem?_append_left (by rw [List.length_cons, length_laterLineStarts]; omega), last,
    Option.getD_some]

/-- All later lines start behind the boundary. -/
theorem lt_starts_getD (split : before ++ rest = source.toList)
    (fits : source.utf8ByteSize ≤ Span.limit) {j : Nat} (later : before.count '\n' < j)
    (hj : j < (ofSource source).size) : utf8Length before < (ofSource source).starts.getD j 0 := by
  have front : (0 :: laterLineStarts 0 before).length = before.count '\n' + 1 := by
    rw [List.length_cons, length_laterLineStarts]
  rw [size, ofSource_starts split, List.size_toArray, List.length_append, front] at hj
  have inside : j - (before.count '\n' + 1) < (laterLineStarts (utf8Length before) rest).length := by
    omega
  rw [ofSource_starts split, Array.getD_eq_getD_getElem?, List.getElem?_toArray,
    List.getElem?_append_right (by omega), front, List.getElem?_eq_getElem inside, Option.getD_some]
  rw [← utf8Length_add_of_split split] at fits
  exact (bounds_of_mem_laterLineStarts fits (List.getElem_mem inside)).1

/-- A boundary is on the line that its line feeds count. -/
theorem indexAt_boundary (split : before ++ rest = source.toList)
    (fits : source.utf8ByteSize ≤ Span.limit) :
    (ofSource source).indexAt (utf8Length before) = before.count '\n' := by
  have bytes := utf8Length_add_of_split split
  refine indexAt_eq (grows_starts fits) ?_ ?_ fun j later hj => lt_starts_getD split fits later hj
  · rw [size, ofSource_starts split, List.size_toArray, List.length_append, List.length_cons,
      length_laterLineStarts]
    omega
  · rw [starts_getD_count split (by omega)]
    conv_rhs => rw [← List.rdropWhile_append_rtakeWhile (p := (· ≠ '\n')) (l := before)]
    rw [utf8Length_append]
    exact Nat.le_add_right _ _

end LineTable

section

variable {source : String} {before : List Char} (h : before <+: source.toList)
  (fits : source.utf8ByteSize ≤ Span.limit)

include h fits

/-- The position at a boundary between two characters of a source is the one behind the characters in
front of it, as far as 32 bits hold its numbers. -/
theorem positionIn_eq_held :
    positionIn source (utf8Length before) = (Position.behind before).held := by
  obtain ⟨rest, split⟩ := h
  have bytes := LineTable.utf8Length_add_of_split split
  have numbers : before.count '\n' + 1 + ((lastLine before).length + 1) ≤ utf8Length before + 2 :=
    Position.line_add_column_behind_le before
  have line : (LineTable.ofSource source).lineAt (utf8Length before) =
      wrappingAdd (before.count '\n') 1 := by
    rw [LineTable.lineAt, LineTable.indexAt_boundary split fits, ordinal_of_le (by omega)]
  have column : charsBetween? source.toList (utf8Length (before.rdropWhile (· ≠ '\n')))
      (utf8Length before) = some (lastLine before).length := by
    have parts := charsBetween?_append (before.rdropWhile (· ≠ '\n')) (lastLine before) rest
    rwa [lastLine, List.rdropWhile_append_rtakeWhile, split] at parts
  rw [positionIn, LineTable.positionAt, line, LineTable.lineStart,
    countOf_wrappingAdd_one (by omega), LineTable.starts_getD_count split (by omega),
    Nat.min_eq_left (by omega), column, Option.getD_some, ordinal_of_le (by omega)]
  rfl

/-- In front of the largest offset the numbers fit. -/
theorem positionIn_eq (inside : utf8Length before < Span.limit) :
    positionIn source (utf8Length before) = .behind before := by
  have numbers := Position.line_add_column_behind_le before
  have line : 1 ≤ (Position.behind before).line := Nat.le_add_left 1 _
  have column : 1 ≤ (Position.behind before).column := Nat.le_add_left 1 _
  rw [positionIn_eq_held h fits, Position.held, wrappingAdd_of_lt (by omega),
    wrappingAdd_of_lt (by omega)]
  rfl

end

theorem utf8Length_replicate (n : Nat) (c : Char) :
    utf8Length (List.replicate n c) = n * c.utf8Size := by
  induction n with
  | zero => rw [Nat.zero_mul, List.replicate_zero, utf8Length]
  | succ n ih => rw [List.replicate_succ, utf8Length, ih, Nat.succ_mul, Nat.add_comm]

/-- Behind characters of one line there is only one line, and the column counts them all. -/
theorem Position.behind_replicate {c : Char} (hc : c ≠ '\n') (n : Nat) :
    Position.behind (List.replicate n c) = ⟨1, n + 1⟩ := by
  have line : lastLine (List.replicate n c) = List.replicate n c :=
    List.rtakeWhile_eq_self_iff.mpr fun d hd => by
      rw [List.eq_of_mem_replicate hd]
      exact decide_eq_true hc
  rw [behind, line, List.count_replicate, if_neg (mt beq_iff_eq.mp hc), List.length_replicate]

end PageScript
