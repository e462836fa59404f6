import PageScript.Proofs.Number.Shortest
import PageScript.Proofs.Syntax.Display.Brackets
import PageScript.Proofs.Syntax.Printing
import PageScript.Syntax.Expr.Display

/-!
# Proofs/Syntax/Display/Words — what is shown as a single word

Names, dotted paths, operators and all literals but strings are shown as words.  A finite number is shown as
no word that starts with a letter, and the other literals are shown as reserved words; so a literal can be
told from every other one (`Literal.eq_of_tree_eq`) and from every variable (`Literal.tree_ne`).
-/

namespace PageScript

/-! ## Words -/

section

variable {name : Name} {value other : Literal} {x : Float} {text : String}

theorem isBreak_of_isWordChar {c : Char} (h : Lexeme.isWordChar c = true) : Tree.isBreak c = false := by
  rw [Bool.eq_false_iff]
  intro stop
  simp only [Tree.isBreak, Bool.or_eq_true, beq_iff_eq] at stop
  obtain ((((rfl | rfl) | rfl) | rfl) | rfl) | rfl := stop <;> exact absurd h (by decide)

theorem IsWord.isPlain {chars : List Char} (h : IsWord chars) : Tree.IsPlain chars where
  some_char := by
    obtain ⟨c, cs, rfl, -⟩ := h.letter
    exact List.cons_ne_nil c cs
  inside c hc := isBreak_of_isWordChar (h.word c hc)

theorem Name.IsVariable.ne_spelling (h : name.IsVariable) (k : Keyword) : name.text ≠ k.spelling := by
  intro same
  have reserved := Keyword.ofSpelling?_spelling k
  rw [← same, h.2] at reserved
  cases reserved

theorem Name.IsMember.proper (h : name.IsMember) : (Tree.word name.text).Proper := .word h.isPlain

/-- The plain text of a finite number: digits, with a point among them or a sign in front. -/
theorem Number.plain_chars (h : isFinite x = true) : ∃ sign chars, (plain x).toList = sign ++ chars ∧
    (sign = [] ∨ sign = ['-']) ∧ IsNumeral chars := by
  obtain ⟨negative, m, e, hx⟩ := exists_of_isFinite h
  refine ⟨_, _, toList_plain hx, ?_, isNumeral_positional _⟩
  cases negative
  · exact .inl rfl
  · exact .inr rfl

theorem IsNumeral.isBreak {chars : List Char} (h : IsNumeral chars) : ∀ c ∈ chars, Tree.isBreak c = false := by
  have digit {c : Char} (hc : c.isDigit = true) : Tree.isBreak c = false :=
    isBreak_of_isWordChar (isWordChar_of_isDigit hc)
  intro c hc
  cases h with
  | whole _ hds => exact digit (hds c hc)
  | fraction _ hds hfs =>
    obtain hc | hc := List.mem_append.mp hc
    · exact digit (hds c hc)
    · obtain rfl | hc := List.mem_cons.mp hc
      · rfl
      · exact digit (hfs c hc)

theorem Number.isPlain_plain (h : isFinite x = true) : Tree.IsPlain (plain x).toList := by
  obtain ⟨sign, chars, written, signs, numeral⟩ := plain_chars h
  obtain ⟨c, cs, starts, -⟩ := numeral.starts
  rw [written]
  refine ⟨by simp [starts], fun d hd => ?_⟩
  obtain hd | hd := List.mem_append.mp hd
  · obtain rfl | rfl := signs
    · nomatch hd
    · obtain rfl := List.mem_singleton.mp hd
      rfl
  · exact numeral.isBreak d hd

/-- No number is shown as a word that starts with a letter. -/
theorem Number.plain_ne (h : isFinite x = true) (hword : IsWord text.toList) : plain x ≠ text := by
  rintro rfl
  obtain ⟨sign, chars, written, signs, numeral⟩ := plain_chars h
  obtain ⟨c, cs, starts, digit⟩ := numeral.starts
  obtain ⟨d, ds, letters, letter⟩ := hword.letter
  rw [written, starts] at letters
  obtain rfl | rfl := signs
  · obtain ⟨rfl, -⟩ := List.cons.inj letters
    exact nomatch (not_isAlpha_of_isDigit digit).symm.trans letter
  · obtain ⟨rfl, -⟩ := List.cons.inj letters
    cases letter

theorem isPlain_toString (n : Nat) : Tree.IsPlain (toString n).toList := by
  have chars : (toString n).toList = Number.digits n := String.toList_ofList
  rw [chars]
  exact ⟨Nat.toDigits_ne_nil, fun c hc => isBreak_of_isWordChar (isWordChar_of_isDigit
    (Nat.isDigit_of_mem_toDigits (by decide) (by decide) hc))⟩

theorem eq_of_toString_eq {m n : Nat} (h : toString m = toString n) : m = n := by
  have digits : Number.digits m = Number.digits n := String.ofList_injective h
  rw [← Number.digitsValue_digits m, digits, Number.digitsValue_digits]

/-! ## Literals -/

/-- A literal as a tree. -/
def Literal.tree : Literal → Tree
  | .string value => .quoted value
  | value => .word value.display

/-- The number of a literal is finite. -/
def Literal.IsShown : Literal → Prop
  | .number value => Number.isFinite value = true
  | _ => True

theorem Literal.toList_display (value : Literal) : value.display.toList = value.tree.print := by
  cases value <;> simp [Literal.display, Literal.tree]

/-- The reserved word that a literal is shown as, if it is neither a string nor a number. -/
def Literal.word? : Literal → Option Keyword
  | .boolean value => some (if value then .trueWord else .falseWord)
  | .empty => some .emptyWord
  | .null => some .nullWord
  | .nothing => some .nothingWord
  | _ => none

theorem Literal.tree_of_word? {k : Keyword} (h : value.word? = some k) :
    value.tree = .word k.spelling := by
  cases value with
  | string | number => cases h
  | boolean value => cases value <;> cases h <;> rfl
  | _ => cases h; rfl

theorem Literal.eq_of_word?_eq {k : Keyword} (h : value.word? = some k) (h' : other.word? = some k) :
    value = other := by
  cases value <;> cases other <;> grind [Literal.word?]

theorem Literal.IsShown.proper (h : value.IsShown) : value.tree.Proper := by
  cases hword : value.word? with
  | some k => exact tree_of_word? hword ▸ .word k.isWord_spelling.isPlain
  | none =>
    cases value with
    | string value => exact .quoted value
    | number value => exact .word (Number.isPlain_plain h)
    | _ => cases hword

/-- A literal can be told from every other one. -/
theorem Literal.eq_of_tree_eq (h : value.IsShown) (h' : other.IsShown) (same : value.tree = other.tree) :
    value = other := by
  have apart {k : Keyword} {x : Float} (h : Number.isFinite x = true) :
      Tree.word k.spelling ≠ .word (Number.plain x) := fun same =>
    Number.plain_ne h k.isWord_spelling (Tree.word.inj same).symm
  cases hword : value.word? with
  | some k =>
    rw [tree_of_word? hword] at same
    cases hword' : other.word? with
    | some k' =>
      rw [tree_of_word? hword'] at same
      have found := Keyword.ofSpelling?_spelling k
      rw [Tree.word.inj same, Keyword.ofSpelling?_spelling] at found
      exact eq_of_word?_eq hword (found ▸ hword')
    | none =>
      cases other with
      | string => nomatch same
      | number => exact absurd same (apart h')
      | _ => cases hword'
  | none =>
    cases hword' : other.word? with
    | some k' =>
      rw [tree_of_word? hword'] at same
      cases value with
      | string => nomatch same
      | number => exact absurd same.symm (apart h)
      | _ => cases hword
    | none =>
      cases value with
      | string =>
        cases other with
        | string => exact congrArg Literal.string (Tree.quoted.inj same)
        | number => nomatch same
        | _ => cases hword'
      | number =>
        cases other with
        | string => nomatch same
        | number => exact congrArg Literal.number (Number.injOn_plain h h' (Tree.word.inj same))
        | _ => cases hword'
      | _ => cases hword

/-- No variable has the name that a literal is shown as. -/
theorem Literal.tree_ne (h : value.IsShown) (hname : name.IsVariable) : value.tree ≠ .word name.text := by
  intro same
  cases hword : value.word? with
  | some k =>
    rw [tree_of_word? hword] at same
    exact hname.ne_spelling k (Tree.word.inj same).symm
  | none =>
    cases value with
    | string => nomatch same
    | number => exact Number.plain_ne h hname.1 (Tree.word.inj same)
    | _ => cases hword

end

/-! ## Operators and paths -/

theorem BinaryOp.spelling_inj {op op' : BinaryOp} (h : op.spelling = op'.spelling) : op = op' := by
  cases op <;> cases op' <;> first | rfl | exact absurd h (by decide)

theorem UnaryOp.label_inj {op op' : UnaryOp} (h : op.label = op'.label) : op = op' := by
  cases op <;> cases op' <;> first | rfl | exact absurd h (by decide)

theorem BinaryOp.isPlain_spelling (op : BinaryOp) : Tree.IsPlain op.spelling.toList :=
  .of_chars (by cases op <;> decide +kernel) (by cases op <;> decide +kernel)

theorem UnaryOp.isPlain_label (op : UnaryOp) : Tree.IsPlain op.label.toList :=
  .of_chars (by cases op <;> decide +kernel) (by cases op <;> decide +kernel)

/-- A path with points in between. -/
def dotted (path : List Name) : String := String.intercalate "." (path.map Name.text)

theorem toList_dotted (path : List Name) :
    (dotted path).toList = ['.'].intercalate (path.map fun name => name.text.toList) := by
  rw [dotted, String.toList_intercalate, List.map_map]
  rfl

theorem dotted_inj {path path' : List Name} (some_name : path ≠ []) (some_name' : path' ≠ [])
    (h : ∀ name ∈ path, name.IsMember) (h' : ∀ name ∈ path', name.IsMember)
    (same : dotted path = dotted path') : path = path' := by
  have point {path : List Name} (h : ∀ name ∈ path, name.IsMember) :
      ∀ chars ∈ path.map fun name => name.text.toList, '.' ∉ chars := by
    intro chars hchars dot
    obtain ⟨name, hname, rfl⟩ := List.mem_map.mp hchars
    exact nomatch (h name hname).word _ dot
  have chars := congrArg String.toList same
  rw [toList_dotted, toList_dotted] at chars
  have split := congrArg (List.splitOn '.') chars
  rw [List.splitOn_intercalate _ (point h) (by simpa using some_name),
    List.splitOn_intercalate _ (point h') (by simpa using some_name')] at split
  exact List.map_injective_iff.mpr (fun a b h => Name.ext (String.toList_inj.mp h)) split

theorem isPlain_dotted : ∀ {path : List Name}, path ≠ [] → (∀ name ∈ path, name.IsMember) →
    Tree.IsPlain (dotted path).toList
  | [name], _, h => by
    rw [toList_dotted, List.map_singleton, List.intercalate_singleton]
    exact (h name List.mem_cons_self).isPlain
  | name :: next :: path, _, h => by
    have first := (h name List.mem_cons_self).isPlain
    have further := isPlain_dotted (List.cons_ne_nil next path)
      fun name hname => h name (List.mem_cons_of_mem _ hname)
    rw [toList_dotted, List.map_cons] at further
    rw [toList_dotted, List.map_cons, List.map_cons, List.intercalate_cons_cons]
    refine ⟨fun none => ?_, fun c hc => ?_⟩
    · exact first.some_char (List.append_eq_nil_iff.mp (List.append_eq_nil_iff.mp none).1).1
    · obtain hc | hc := List.mem_append.mp hc
      · obtain hc | hc := List.mem_append.mp hc
        · exact first.inside c hc
        · obtain rfl := List.mem_singleton.mp hc
          rfl
      · exact further.inside c hc

end PageScript
