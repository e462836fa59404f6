import PageScript.Proofs.Text.Quoting

/-!
# Proofs/Syntax/Display/Brackets — bracketed trees and their text

What expressions and statements are shown as has one shape: words, quoted texts, and rows of such in round
or square brackets, with a space between any two of a row.  If its words are proper, holding no space, no
bracket and no quote, then the text of such a tree determines it (`Tree.eq_of_print_eq`), and where it ends
in a longer one (`Tree.Proper.reads`).
-/

namespace PageScript

/-- The two kinds of brackets. -/
inductive Brackets where
  | round | square
deriving DecidableEq

/-- The bracket in front. -/
@[simp] def Brackets.opening : Brackets → Char
  | round => '('
  | square => '['

/-- The bracket behind. -/
@[simp] def Brackets.closing : Brackets → Char
  | round => ')'
  | square => ']'

/-- A tree that is shown in brackets. -/
inductive Tree where
  | word (text : String)
  | quoted (text : String)
  | row (brackets : Brackets) (items : List Tree)

namespace Tree

/-- A row in round brackets. -/
abbrev round (items : List Tree) : Tree := row .round items

/-- A row in square brackets. -/
abbrev square (items : List Tree) : Tree := row .square items

mutual

/-- The text of a tree. -/
@[simp] def print : Tree → List Char
  | word text => text.toList
  | quoted text => (Text.quote text).toList
  | row brackets items => brackets.opening :: (printRow items ++ [brackets.closing])

/-- The texts of trees, with a space between any two. -/
@[simp] def printRow : List Tree → List Char
  | [] => []
  | t :: rest => t.print ++ printFurther rest

/-- The texts of trees, each with a space in front. -/
@[simp] def printFurther : List Tree → List Char
  | [] => []
  | t :: rest => ' ' :: (t.print ++ printFurther rest)

end

theorem printFurther_append (ts us : List Tree) :
    printFurther (ts ++ us) = printFurther ts ++ printFurther us := by
  induction ts with
  | nil => rfl
  | cons t ts ih => simp [ih]

/-- The characters that no word holds. -/
def isBreak (c : Char) : Bool :=
  c == ' ' || c == '(' || c == ')' || c == '[' || c == ']' || c == '"'

/-- A text is a word: it is not empty and has no breaks. -/
structure IsPlain (text : List Char) : Prop where
  some_char : text ≠ []
  inside : ∀ c ∈ text, isBreak c = false

/-- Whether a text is a word can be computed. -/
theorem IsPlain.of_chars {text : List Char} (some_char : text.isEmpty = false)
    (inside : text.all (fun c => !isBreak c) = true) : IsPlain text where
  some_char := by
    rintro rfl
    cases some_char
  inside c hc := by simpa using List.all_eq_true.mp inside c hc

/-- All words of a tree are proper. -/
inductive Proper : Tree → Prop
  | word {text : String} (h : IsPlain text.toList) : Proper (word text)
  | quoted (text : String) : Proper (quoted text)
  | row {brackets : Brackets} {items : List Tree} (h : ∀ t ∈ items, t.Proper) :
      Proper (row brackets items)

/-- All words of trees are proper. -/
def AllProper (ts : List Tree) : Prop := ∀ t ∈ ts, t.Proper

/-- What stands behind a tree in a longer text: nothing, a space or a closing bracket. -/
def Ends (rest : List Char) : Prop := ∀ c ∈ rest.head?, c = ' ' ∨ ∃ b : Brackets, c = b.closing

/-- The text of a tree determines it and where it ends. -/
def Reads (t : Tree) : Prop :=
  ∀ {u : Tree} {r r' : List Char}, u.Proper → Ends r → Ends r' → t.print ++ r = u.print ++ r' →
    t = u ∧ r = r'

variable {t u : Tree} {ts us : List Tree} {r r' : List Char} {c : Char} {b : Brackets}

theorem AllProper.nil : AllProper [] := nofun

theorem AllProper.cons (h : t.Proper) (hs : AllProper ts) : AllProper (t :: ts) :=
  List.forall_mem_cons.mpr ⟨h, hs⟩

theorem AllProper.one (h : t.Proper) : AllProper [t] := .cons h .nil

theorem AllProper.append (h : AllProper ts) (h' : AllProper us) : AllProper (ts ++ us) :=
  List.forall_mem_append.mpr ⟨h, h'⟩

theorem AllProper.map {α : Type} {f : α → Tree} {as : List α} (h : ∀ a ∈ as, (f a).Proper) :
    AllProper (as.map f) := List.forall_mem_map.mpr h

/-- A word of its own in front. -/
theorem Proper.headed {text : String} (h : IsPlain text.toList) (hs : AllProper ts) :
    (round (.word text :: ts)).Proper := .row (AllProper.cons (.word h) hs)

theorem ends_nil : Ends [] := nofun

theorem ends_space : Ends (' ' :: r) := fun _ hd => by
  cases hd
  exact .inl rfl

theorem ends_closing : Ends (b.closing :: r) := fun _ hd => by
  cases hd
  exact .inr ⟨b, rfl⟩

theorem Ends.isBreak (h : Ends r) : ∀ c ∈ r.head?, isBreak c = true := fun c hc => by
  obtain rfl | ⟨b, rfl⟩ := h c hc
  · rfl
  · cases b <;> rfl

/-! ## The first character -/

/-- What a tree is: a word, a quoted text, or a row in brackets of a kind. -/
inductive Form where
  | word | quoted | row (brackets : Brackets)

/-- What a tree is. -/
def form : Tree → Form
  | word _ => .word
  | quoted _ => .quoted
  | row brackets _ => .row brackets

/-- What a tree is that starts with a character. -/
def formOf (c : Char) : Form :=
  if c = '(' then .row .round else if c = '[' then .row .square else if c = '"' then .quoted else .word

theorem formOf_of_not_isBreak (h : isBreak c = false) : formOf c = .word := by
  simp only [isBreak, Bool.or_eq_false_iff, beq_eq_false_iff_ne] at h
  rw [formOf, if_neg h.1.1.1.1.2, if_neg h.1.1.2, if_neg h.2]

/-- A tree starts with a character that tells what it is, and with no closing bracket. -/
theorem Proper.starts (h : t.Proper) :
    ∃ c cs, t.print = c :: cs ∧ formOf c = t.form ∧ ∀ b : Brackets, c ≠ b.closing := by
  cases h with
  | @word text h =>
    obtain ⟨c, cs, chars⟩ := List.exists_cons_of_ne_nil h.some_char
    have inside := h.inside c (chars ▸ List.mem_cons_self)
    refine ⟨c, cs, by rw [print, chars], formOf_of_not_isBreak inside, ?_⟩
    rintro b rfl
    cases b <;> exact absurd inside (by decide)
  | quoted text => exact ⟨_, _, Text.toList_quote text, rfl, by intro b; cases b <;> decide⟩
  | @row brackets =>
    refine ⟨_, _, rfl, ?_, fun b => ?_⟩
    · cases brackets <;> rfl
    · cases brackets <;> cases b <;> decide

/-- Trees at the front of one text are of one form. -/
theorem Proper.form_eq (h : t.Proper) (h' : u.Proper) (same : t.print ++ r = u.print ++ r') :
    t.form = u.form := by
  obtain ⟨c, cs, chars, form, -⟩ := h.starts
  obtain ⟨c', cs', chars', form', -⟩ := h'.starts
  rw [chars, chars'] at same
  rw [← form, ← form', (List.cons.inj same).1]

theorem Proper.ne_closing (h : t.Proper) : t.print ++ r ≠ b.closing :: r' := by
  obtain ⟨c, cs, chars, -, other⟩ := h.starts
  rw [chars]
  exact fun same => other b (List.cons.inj same).1

/-! ## Rows -/

theorem ends_further : Ends (printFurther ts ++ b.closing :: r) := by
  cases ts with
  | nil => exact ends_closing
  | cons => exact ends_space

/-- Behind the first tree of a row, up to the closing bracket. -/
theorem further_append_inj : ∀ {ts us : List Tree} {r r' : List Char}, (∀ t ∈ ts, t.Reads) →
    (∀ u ∈ us, u.Proper) → printFurther ts ++ b.closing :: r = printFurther us ++ b.closing :: r' →
      ts = us ∧ r = r'
  | [], [], _, _, _, _, h => ⟨rfl, (List.cons.inj h).2⟩
  | [], _ :: _, _, _, _, _, h => by cases b <;> exact nomatch (List.cons.inj h).1
  | _ :: _, [], _, _, _, _, h => by cases b <;> exact nomatch (List.cons.inj h).1
  | t :: ts, u :: us, r, r', reads, proper, h => by
    have behind : t.print ++ (printFurther ts ++ b.closing :: r) =
        u.print ++ (printFurther us ++ b.closing :: r') := by
      simpa [printFurther] using h
    obtain ⟨rfl, further⟩ := reads t List.mem_cons_self (proper u List.mem_cons_self) ends_further
      ends_further behind
    obtain ⟨rfl, rest⟩ := further_append_inj (fun t ht => reads t (List.mem_cons_of_mem _ ht))
      (fun u hu => proper u (List.mem_cons_of_mem _ hu)) further
    exact ⟨rfl, rest⟩

theorem row_append_inj (reads : ∀ t ∈ ts, t.Reads) (proper : ∀ t ∈ ts, t.Proper)
    (proper' : ∀ u ∈ us, u.Proper)
    (h : printRow ts ++ b.closing :: r = printRow us ++ b.closing :: r') : ts = us ∧ r = r' := by
  match ts, us with
  | [], [] => exact ⟨rfl, (List.cons.inj h).2⟩
  | [], u :: us =>
    rw [printRow, printRow, List.append_assoc] at h
    exact absurd h.symm (proper' u List.mem_cons_self).ne_closing
  | t :: ts, [] =>
    rw [printRow, printRow, List.append_assoc] at h
    exact absurd h (proper t List.mem_cons_self).ne_closing
  | t :: ts, u :: us =>
    refine further_append_inj (b := b) reads proper' ?_
    rw [printFurther, printFurther]
    exact congrArg (' ' :: ·) h

/-! ## Trees -/

/-- A word is read up to the next break. -/
theorem takeWhile_word {text : List Char} (h : IsPlain text) (hr : Ends r) :
    (text ++ r).takeWhile (fun c => !isBreak c) = text :=
  takeWhile_run (fun c hc => congrArg not (h.inside c hc)) fun c hc => congrArg not (hr.isBreak c hc)

/-- **A tree can be read off the front of a text**, if its words are proper. -/
theorem Proper.reads (h : t.Proper) : t.Reads := by
  induction h with
  | word h =>
    intro u r r' hu hr hr' same
    have form := (Proper.word h).form_eq hu same
    cases hu with
    | word h' =>
      have words := congrArg (List.takeWhile fun c => !isBreak c) same
      rw [print, print, takeWhile_word h hr, takeWhile_word h' hr'] at words
      obtain rfl := String.toList_inj.mp words
      exact ⟨rfl, List.append_cancel_left same⟩
    | quoted | row => cases form
  | quoted text =>
    intro u r r' hu _ _ same
    have form := (Proper.quoted text).form_eq hu same
    cases hu with
    | quoted text' =>
      obtain ⟨rfl, rest⟩ := Text.quote_append_inj same
      exact ⟨rfl, rest⟩
    | word | row => cases form
  | row h ih =>
    intro u r r' hu _ _ same
    have form := (Proper.row h).form_eq hu same
    cases hu with
    | row h' =>
      cases form
      rw [print, print, List.cons_append, List.cons_append, List.append_assoc, List.append_assoc] at same
      obtain ⟨rfl, rest⟩ := row_append_inj ih h h' (List.cons.inj same).2
      exact ⟨rfl, rest⟩
    | word | quoted => cases form

/-- **A tree is determined by its text**, if its words are proper. -/
theorem eq_of_print_eq (h : t.Proper) (h' : u.Proper) (same : t.print = u.print) : t = u := by
  refine (h.reads h' ends_nil ends_nil ?_).1
  rw [List.append_nil, List.append_nil, same]

end Tree

end PageScript
