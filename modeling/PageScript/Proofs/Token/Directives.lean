import Mathlib.Data.List.Basic
import PageScript.Token.Markup

/-!
# Proofs/Token/Directives — include directives as they are written

`Directive.IsWritten path isVirtual chars` says that `chars` are an include directive with a path and a
mode: the parts of one, in letters of either case, with blanks around every part and at least one behind
`#include`.  A directive is read at the front of a text exactly where one is written there, up to its
end and whatever stands behind it (`Directive.read?_eq_some`).
-/

namespace PageScript.Directive

variable {word chars rest path : List Char} {isVirtual : Bool}

/-! ## The written form -/

/-- Blanks of a directive. -/
def AreGap (gap : List Char) : Prop := ∀ c ∈ gap, isGap c = true

instance (gap : List Char) : Decidable (AreGap gap) :=
  List.decidableBAll (isGap · = true) gap

/-- The same letters in either case. -/
def SameLetters (chars word : List Char) : Prop := chars.map Char.toLower = word.map Char.toLower

instance (chars word : List Char) : Decidable (SameLetters chars word) :=
  inferInstanceAs (Decidable (chars.map Char.toLower = word.map Char.toLower))

/-- The word that says how the path of a directive counts. -/
def modeWord (isVirtual : Bool) : List Char := (if isVirtual then "virtual" else "file").toList

/-- The characters begin like a directive: the sign of a comment and `#include`, with a blank behind it. -/
def Begins (chars : List Char) : Prop :=
  ∃ gap named c rest, chars = "<!--".toList ++ gap ++ named ++ c :: rest ∧ AreGap gap ∧
    SameLetters named "#include".toList ∧ isGap c = true

/-- An include directive with a path, as it is written. -/
inductive IsWritten (path : List Char) (isVirtual : Bool) : List Char → Prop
  | intro {gap₁ named gap₂ mode gap₃ gap₄ gap₅ : List Char} (inner : '"' ∉ path)
      (spelled : SameLetters named "#include".toList) (moded : SameLetters mode (modeWord isVirtual))
      (spaced : gap₂ ≠ []) (blank₁ : AreGap gap₁) (blank₂ : AreGap gap₂) (blank₃ : AreGap gap₃)
      (blank₄ : AreGap gap₄) (blank₅ : AreGap gap₅) :
      IsWritten path isVirtual ("<!--".toList ++ gap₁ ++ named ++ gap₂ ++ mode ++ gap₃ ++ ['='] ++
        gap₄ ++ ['"'] ++ path ++ ['"'] ++ gap₅ ++ "-->".toList)

/-! ## Words and blanks -/

/-- A fixed word is found where its letters stand. -/
theorem afterWord?_eq_some : afterWord? word chars = some rest ↔
    ∃ taken, chars = taken ++ rest ∧ SameLetters taken word := by
  fun_induction afterWord? word chars with
  | case1 chars =>
    rw [Option.some_inj]
    constructor
    · rintro rfl
      exact ⟨[], rfl, rfl⟩
    · rintro ⟨taken, rfl, same⟩
      obtain rfl := List.map_eq_nil_iff.mp same
      rfl
  | case2 w word c chars same ih =>
    refine ih.trans ⟨?_, ?_⟩
    · rintro ⟨taken, rfl, further⟩
      exact ⟨c :: taken, rfl, congrArg₂ List.cons same.symm further⟩
    · rintro ⟨taken, split, whole⟩
      obtain ⟨d, taken, rfl, -, further⟩ := List.map_eq_cons_iff.mp whole
      obtain ⟨rfl, rfl⟩ := List.cons.inj split
      exact ⟨taken, rfl, further⟩
  | case3 w word c chars other =>
    refine ⟨nofun, ?_⟩
    rintro ⟨taken, split, further⟩
    obtain ⟨d, taken, rfl, same, -⟩ := List.map_eq_cons_iff.mp further
    obtain ⟨rfl, -⟩ := List.cons.inj split
    exact absurd same.symm other
  | case4 w word =>
    refine ⟨nofun, ?_⟩
    rintro ⟨taken, split, further⟩
    obtain ⟨rfl, -⟩ := List.append_eq_nil_iff.mp split.symm
    cases further

/-- A sign in front of the letters is matched by itself alone. -/
theorem eq_of_toLower_eq {w c : Char} (hw : w.val < 65) (h : w.toLower = c.toLower) : w = c := by
  unfold Char.toLower at h
  rw [dif_neg fun hupper => absurd hupper.1 (UInt32.not_le.mpr hw)] at h
  split at h
  case isTrue hupper =>
    have hlow : w.val = c.val + 32 := congrArg Char.val h
    have hle : 65 ≤ c.val := hupper.1
    have hge : c.val ≤ 90 := hupper.2
    rw [hlow, UInt32.lt_iff_toNat_lt, UInt32.toNat_add] at hw
    rw [UInt32.le_iff_toNat_le] at hle hge
    simp at hw hle hge
    omega
  case isFalse => exact h

/-- A word without letters. -/
def AreSigns (word : List Char) : Prop := ∀ w ∈ word, w.val < 65

theorem SameLetters.eq_of_areSigns (hword : AreSigns word) (h : SameLetters chars word) :
    chars = word := by
  induction word generalizing chars with
  | nil => exact List.map_eq_nil_iff.mp h
  | cons w word ih =>
    obtain ⟨c, chars, rfl, same, further⟩ := List.map_eq_cons_iff.mp h
    obtain ⟨sign, signs⟩ := List.forall_mem_cons.mp hword
    rw [eq_of_toLower_eq sign same.symm, ih signs further]

/-- A word without letters is found where it stands. -/
theorem afterWord?_signs (hword : AreSigns word) :
    afterWord? word chars = some rest ↔ chars = word ++ rest := by
  rw [afterWord?_eq_some]
  constructor
  · rintro ⟨taken, rfl, same⟩
    rw [same.eq_of_areSigns hword]
  · rintro rfl
    exact ⟨word, rfl, rfl⟩

/-- The word starts with no blank, in either case. -/
def StartsBare (word : List Char) : Prop :=
  ∃ w tail, word = w :: tail ∧ ∀ c, isGap c = true → c.toLower ≠ w.toLower

/-- Whether a word starts with no blank can be computed. -/
theorem startsBare (h : word.head?.any fun w =>
    [' ', '\t', '\n', '\r', '\x0c'].all fun c => decide (c.toLower ≠ w.toLower)) : StartsBare word := by
  cases word with
  | nil => cases h
  | cons w tail =>
    refine ⟨w, tail, rfl, fun c hc => ?_⟩
    have listed : c ∈ [' ', '\t', '\n', '\r', '\x0c'] := by
      simp only [isGap, Bool.or_eq_true, beq_iff_eq, or_assoc] at hc
      simpa using hc
    exact of_decide_eq_true (List.all_eq_true.mp h c listed)

/-- Blanks are passed up to a character that is none. -/
theorem afterGap_append {gap : List Char} (hgap : AreGap gap) {c : Char} (hc : isGap c = false)
    (behind : List Char) : afterGap (gap ++ c :: behind) = c :: behind := by
  induction gap with
  | nil => exact List.dropWhile_cons_of_neg (Bool.eq_false_iff.mp hc)
  | cons d gap ih =>
    rw [AreGap, List.forall_mem_cons] at hgap
    exact (List.dropWhile_cons_of_pos hgap.1).trans (ih hgap.2)

/-- Blanks are passed up to a word that starts with none. -/
theorem SameLetters.afterGap_eq {gap taken : List Char} (hword : StartsBare word) (hgap : AreGap gap)
    (same : SameLetters taken word) (rest : List Char) :
    afterGap (gap ++ (taken ++ rest)) = taken ++ rest := by
  obtain ⟨w, tail, rfl, bare⟩ := hword
  obtain ⟨c, taken, rfl, head, -⟩ := List.map_eq_cons_iff.mp same
  exact afterGap_append hgap (Bool.eq_false_iff.mpr fun hc => bare c hc head) _

/-- A word that starts with no blank is found behind blanks where it stands there. -/
theorem afterWord?_afterGap (hword : StartsBare word) :
    afterWord? word (afterGap chars) = some rest ↔
      ∃ gap taken, chars = gap ++ (taken ++ rest) ∧ AreGap gap ∧ SameLetters taken word := by
  constructor
  · intro h
    obtain ⟨taken, htaken, same⟩ := afterWord?_eq_some.mp h
    have split : chars = chars.takeWhile isGap ++ afterGap chars :=
      List.takeWhile_append_dropWhile.symm
    exact ⟨chars.takeWhile isGap, taken, htaken ▸ split,
      fun c hc => List.all_eq_true.mp List.all_takeWhile c hc, same⟩
  · rintro ⟨gap, taken, rfl, hgap, same⟩
    rw [same.afterGap_eq hword hgap]
    exact afterWord?_eq_some.mpr ⟨taken, rfl, same⟩

/-- A word of signs is found behind blanks where it stands there. -/
theorem afterWord?_signs_afterGap (hword : StartsBare word) (signs : AreSigns word) :
    afterWord? word (afterGap chars) = some rest ↔ ∃ gap, chars = gap ++ (word ++ rest) ∧ AreGap gap := by
  rw [afterWord?_afterGap hword]
  constructor
  · rintro ⟨gap, taken, rfl, hgap, same⟩
    exact ⟨gap, by rw [same.eq_of_areSigns signs], hgap⟩
  · rintro ⟨gap, rfl, hgap⟩
    exact ⟨gap, word, rfl, hgap, rfl⟩

/-! ## The parts of a directive -/

/-- The path of a directive ends with the first quote in it. -/
theorem takeWhile_path (inner : '"' ∉ path) :
    (path ++ '"' :: rest).takeWhile (· != '"') = path := by
  have plain : ∀ c ∈ path, (c != '"') = true := fun c hc => bne_iff_ne.mpr fun same => inner (same ▸ hc)
  rw [List.takeWhile_append_of_pos plain]
  exact List.append_nil path

theorem afterWord?_path {quoted unquoted : List Char} :
    afterWord? ['"'] (quoted.drop (quoted.takeWhile (· != '"')).length) = some unquoted ↔
      ∃ path, quoted.takeWhile (· != '"') = path ∧ quoted = path ++ '"' :: unquoted ∧ '"' ∉ path := by
  rw [afterWord?_signs (by simp [AreSigns])]
  constructor
  · intro h
    refine ⟨_, rfl, ?_, fun mem => absurd (List.all_eq_true.mp List.all_takeWhile _ mem) (by decide)⟩
    have split : quoted = quoted.takeWhile (· != '"') ++
        quoted.drop (quoted.takeWhile (· != '"')).length :=
      (List.prefix_iff_eq_append.mp (List.takeWhile_prefix _)).symm
    rwa [h] at split
  · rintro ⟨path, -, rfl, inner⟩
    rw [takeWhile_path inner, List.drop_left]
    rfl

/-- Which of the two words stands behind blanks, at least one, and what is left behind it. -/
def mode? (named : List Char) : Option (Bool × List Char) :=
  if (afterGap named).length = named.length then none
  else match afterWord? "virtual".toList (afterGap named) with
    | some rest => some (true, rest)
    | none => (afterWord? "file".toList (afterGap named)).map fun rest => (false, rest)

/-- The word at the front tells the mode. -/
theorem modeOf_eq_some :
    (match afterWord? "virtual".toList chars with
      | some rest => some (true, rest)
      | none => (afterWord? "file".toList chars).map fun rest => (false, rest)) = some (isVirtual, rest) ↔
    afterWord? (modeWord isVirtual) chars = some rest := by
  cases isVirtual with
  | true =>
    rw [show modeWord true = "virtual".toList from rfl]
    cases afterWord? "virtual".toList chars <;> simp
  | false =>
    rw [show modeWord false = "file".toList from rfl]
    cases found : afterWord? "virtual".toList chars with
    | none => simp
    | some behind =>
      -- The two words differ in their first letters, so a text starts with one of them.
      obtain ⟨taken, rfl, same⟩ := afterWord?_eq_some.mp found
      obtain ⟨c, taken, rfl, head, -⟩ := List.map_eq_cons_iff.mp same
      have other : afterWord? "file".toList (c :: taken ++ behind) = none :=
        if_neg fun head' => absurd (head'.trans head) (by decide)
      rw [other]
      simp

theorem startsBare_modeWord : StartsBare (modeWord isVirtual) := by
  cases isVirtual <;> exact startsBare (by decide)

theorem mode?_eq_some {named moded : List Char} : mode? named = some (isVirtual, moded) ↔
    ∃ gap mode, named = gap ++ (mode ++ moded) ∧ gap ≠ [] ∧ AreGap gap ∧
      SameLetters mode (modeWord isVirtual) := by
  have length {gap mode : List Char} (hnamed : named = gap ++ (mode ++ moded)) (hgap : AreGap gap)
      (same : SameLetters mode (modeWord isVirtual)) :
      (afterGap named).length = named.length ↔ gap = [] := by
    rw [hnamed, same.afterGap_eq startsBare_modeWord hgap, ← List.length_eq_zero_iff]
    simp only [List.length_append]
    omega
  rw [mode?]
  split
  case isTrue short =>
    refine ⟨nofun, ?_⟩
    rintro ⟨gap, mode, hnamed, spaced, hgap, same⟩
    exact absurd ((length hnamed hgap same).mp short) spaced
  case isFalse long =>
    rw [modeOf_eq_some, afterWord?_afterGap startsBare_modeWord]
    refine exists_congr fun gap => exists_congr fun mode => and_congr_right fun hnamed => ?_
    refine ⟨fun ⟨hgap, same⟩ => ⟨?_, hgap, same⟩, fun ⟨_, hgap, same⟩ => ⟨hgap, same⟩⟩
    exact fun none => long ((length hnamed hgap same).mpr none)

/-- A directive behind the word that says how its path counts. -/
def behindMode (length : Nat) (mode : Bool × List Char) : Option Directive := do
  let equated ← afterWord? ['='] (afterGap mode.2)
  let quoted ← afterWord? ['"'] (afterGap equated)
  let path := quoted.takeWhile (· != '"')
  let unquoted ← afterWord? ['"'] (quoted.drop path.length)
  let closed ← afterWord? "-->".toList (afterGap unquoted)
  some ⟨String.ofList path, mode.1, length - closed.length⟩

theorem read?_eq (chars : List Char) : read? chars =
    (afterWord? "<!--".toList chars).bind fun opened =>
      (afterWord? "#include".toList (afterGap opened)).bind fun named =>
        (mode? named).bind (behindMode chars.length) := by
  rw [read?]
  refine congrArg _ (funext fun opened => congrArg _ (funext fun named => ?_))
  dsimp only
  rw [mode?]
  split
  · rfl
  · cases afterWord? "virtual".toList (afterGap named) with
    | some rest => rfl
    | none => cases afterWord? "file".toList (afterGap named) <;> rfl

/-- What stands behind the mode. -/
theorem behindMode_eq_some {length : Nat} {moded : List Char} {d : Directive} :
    behindMode length (isVirtual, moded) = some d ↔ ∃ gap₃ gap₄ path gap₅ rest,
      moded = gap₃ ++ ('=' :: (gap₄ ++ ('"' :: (path ++ '"' :: (gap₅ ++ ("-->".toList ++ rest)))))) ∧
        AreGap gap₃ ∧ AreGap gap₄ ∧ AreGap gap₅ ∧ '"' ∉ path ∧
        ⟨String.ofList path, isVirtual, length - rest.length⟩ = d := by
  have equals {chars rest : List Char} : afterWord? ['='] (afterGap chars) = some rest ↔ _ :=
    afterWord?_signs_afterGap (startsBare (by decide)) (by simp [AreSigns])
  have quote {chars rest : List Char} : afterWord? ['"'] (afterGap chars) = some rest ↔ _ :=
    afterWord?_signs_afterGap (startsBare (by decide)) (by simp [AreSigns])
  have close {chars rest : List Char} : afterWord? "-->".toList (afterGap chars) = some rest ↔ _ :=
    afterWord?_signs_afterGap (startsBare (by decide)) (by simp [AreSigns])
  constructor
  · intro h
    obtain ⟨equated, hequated, h⟩ := Option.bind_eq_some_iff.mp h
    obtain ⟨quoted, hquoted, h⟩ := Option.bind_eq_some_iff.mp h
    obtain ⟨unquoted, hunquoted, h⟩ := Option.bind_eq_some_iff.mp h
    obtain ⟨closed, hclosed, h⟩ := Option.bind_eq_some_iff.mp h
    obtain ⟨gap₃, rfl, blank₃⟩ := equals.mp hequated
    obtain ⟨gap₄, rfl, blank₄⟩ := quote.mp hquoted
    obtain ⟨path, hpath, rfl, inner⟩ := afterWord?_path.mp hunquoted
    obtain ⟨gap₅, rfl, blank₅⟩ := close.mp hclosed
    rw [hpath] at h
    exact ⟨gap₃, gap₄, path, gap₅, closed, rfl, blank₃, blank₄, blank₅, inner, Option.some.inj h⟩
  · rintro ⟨gap₃, gap₄, path, gap₅, rest, rfl, blank₃, blank₄, blank₅, inner, rfl⟩
    refine Option.bind_eq_some_iff.mpr ⟨_, equals.mpr ⟨gap₃, rfl, blank₃⟩, ?_⟩
    refine Option.bind_eq_some_iff.mpr ⟨_, quote.mpr ⟨gap₄, rfl, blank₄⟩, ?_⟩
    refine Option.bind_eq_some_iff.mpr ⟨_, afterWord?_path.mpr ⟨path, takeWhile_path inner, rfl, inner⟩, ?_⟩
    refine Option.bind_eq_some_iff.mpr ⟨_, close.mpr ⟨gap₅, rfl, blank₅⟩, ?_⟩
    exact congrArg (fun path => some (Directive.mk (String.ofList path) isVirtual _))
      (takeWhile_path inner)

/-- **A directive is read exactly where one is written**, up to its end and whatever stands behind
it. -/
theorem read?_eq_some {d : Directive} : read? chars = some d ↔
    ∃ taken rest, chars = taken ++ rest ∧ taken.length = d.length ∧
      IsWritten d.path.toList d.isVirtual taken := by
  have opening {rest : List Char} : afterWord? "<!--".toList chars = some rest ↔ _ :=
    afterWord?_signs (by simp [AreSigns])
  have naming {chars rest : List Char} : afterWord? "#include".toList (afterGap chars) = some rest ↔ _ :=
    afterWord?_afterGap (startsBare (by decide))
  rw [read?_eq]
  constructor
  · intro h
    obtain ⟨opened, hopened, h⟩ := Option.bind_eq_some_iff.mp h
    obtain ⟨named, hnamed, h⟩ := Option.bind_eq_some_iff.mp h
    obtain ⟨⟨isVirtual, moded⟩, hmode, h⟩ := Option.bind_eq_some_iff.mp h
    obtain rfl := opening.mp hopened
    obtain ⟨gap₁, word, rfl, blank₁, spelled⟩ := naming.mp hnamed
    obtain ⟨gap₂, mode, rfl, spaced, blank₂, same⟩ := mode?_eq_some.mp hmode
    obtain ⟨gap₃, gap₄, path, gap₅, rest, rfl, blank₃, blank₄, blank₅, inner, rfl⟩ :=
      behindMode_eq_some.mp h
    have written : IsWritten path isVirtual _ :=
      .intro inner spelled same spaced blank₁ blank₂ blank₃ blank₄ blank₅
    refine ⟨_, rest, ?_, ?_, by rwa [String.toList_ofList]⟩
    · simp only [List.append_assoc, List.cons_append, List.nil_append]
    · simp only [List.length_append, List.length_cons, List.length_nil]
      omega
  · rintro ⟨taken, rest, rfl, length, written⟩
    obtain ⟨path, isVirtual, stop⟩ := d
    dsimp only at length written
    cases written with
    | @intro gap₁ named gap₂ mode gap₃ gap₄ gap₅ inner spelled moded spaced blank₁ blank₂ blank₃
        blank₄ blank₅ =>
      simp only [List.append_assoc, List.cons_append, List.nil_append] at opening length ⊢
      refine Option.bind_eq_some_iff.mpr ⟨_, opening.mpr rfl, ?_⟩
      refine Option.bind_eq_some_iff.mpr ⟨_, naming.mpr ⟨gap₁, named, rfl, blank₁, spelled⟩, ?_⟩
      refine Option.bind_eq_some_iff.mpr ⟨_, mode?_eq_some.mpr
        ⟨gap₂, mode, rfl, spaced, blank₂, moded⟩, ?_⟩
      refine behindMode_eq_some.mpr
        ⟨gap₃, gap₄, path.toList, gap₅, rest, rfl, blank₃, blank₄, blank₅, inner, ?_⟩
      rw [String.ofList_toList]
      congr 1
      simp only [List.length_append, List.length_cons] at length ⊢
      omega

/-- No directive is read where none is written. -/
theorem read?_eq_none : read? chars = none ↔
    ∀ path isVirtual taken rest, chars = taken ++ rest → ¬ IsWritten path isVirtual taken := by
  constructor
  · rintro none path isVirtual taken rest rfl written
    have read : read? (taken ++ rest) = some ⟨String.ofList path, isVirtual, taken.length⟩ :=
      read?_eq_some.mpr ⟨taken, rest, rfl, rfl, by rwa [String.toList_ofList]⟩
    rw [none] at read
    cases read
  · intro unwritten
    refine Option.eq_none_iff_forall_ne_some.mpr fun d read => ?_
    obtain ⟨taken, rest, split, -, written⟩ := read?_eq_some.mp read
    exact unwritten _ _ _ _ split written

end PageScript.Directive

namespace PageScript.Lexeme

variable {chars rest : List Char}

open Directive

/-- A directive starts with the sign of a comment. -/
theorem exists_of_read? {d : Directive} (h : read? chars = some d) :
    ∃ behind, chars = '<' :: '!' :: '-' :: '-' :: behind := by
  obtain ⟨opened, hopened, -⟩ := Option.bind_eq_some_iff.mp (read?_eq chars ▸ h)
  exact ⟨opened, (afterWord?_signs (by simp [AreSigns])).mp hopened⟩

/-- Where a directive is read, it interrupts literal text. -/
theorem interruption?_of_read? {d : Directive} (h : read? chars = some d) :
    interruption? chars = some (.includeFile d.path d.isVirtual, d.length) := by
  obtain ⟨behind, rfl⟩ := exists_of_read? h
  exact congrArg (Option.map _) h

end PageScript.Lexeme
