import PageScript.Proofs.Syntax.Program.Reading
import PageScript.Proofs.Syntax.Program.Source

/-!
# Proofs/Syntax/Program/RoundTrip — programs written as source and read back

A text is a writing of a program (`Stmt.IsWrittenAs`) if it is laid out from pieces that write it:
every statement in one of its forms, between any two of them a run of separators, and wherever a head
of a block ends.  Cutting it into tokens gives the tokens of the pieces, and reading these gives the
program (`Stmt.read_written`).
-/

namespace PageScript

variable {region : Region} {body : List Stmt} {text : String} {joints : List Joint}

/-- What a page of nothing but code starts with; a script starts with nothing. -/
def Region.openingPieces : Region → List Piece
  | .code => []
  | .markup => [⟨[], ['<', '%'], .openCode⟩]

namespace Stmt

/-- The source of a program that starts in a region, with the same separators everywhere. -/
def source (region : Region) (joints : List Joint) (body : List Stmt) : String :=
  String.ofList ((region.openingPieces ++ linePieces (runPieces joints) body).flatMap Piece.text)

/-- The text, read from a region on, is a way to write the program. -/
def IsWrittenAs (region : Region) (body : List Stmt) (text : String) : Prop :=
  ∃ ps, ProgramWritten body ps ∧ Layout region ps text.toList

/-- The source of a program is a way to write it. -/
theorem isWrittenAs_source (region : Region) (h : AreWritable ⟨false, false⟩ body)
    (hjoints : joints ≠ []) : IsWrittenAs region body (source region joints body) := by
  have lines := lines_linePieces (isRun_runPieces hjoints) h
  have spaced := spaced_linePieces (spaced_runPieces joints) h
  have nothing : Layout .code [] [] := .blanks nofun
  have laid := spaced.laid nothing clear_nil
  have clear := spaced.clear clear_nil
  rw [List.append_nil] at clear
  rw [List.append_nil, List.append_nil] at laid
  refine ⟨region.openingPieces ++ linePieces (runPieces joints) body, .closed ?_ lines, ?_⟩
  · cases region with
    | code => exact nofun
    | markup =>
      rintro _ hp
      obtain rfl := List.mem_singleton.mp hp
      trivial
  · rw [source, String.toList_ofList]
    cases region with
    | code => exact laid
    | markup => exact .opening ⟨nofun, rfl, rfl⟩ rfl clear.head?_ne laid

/-- What is written is read. -/
theorem IsWrittenAs.programOf? (h : IsWrittenAs region body text) :
    ∃ body', programOf? region text = .ok body' ∧ unplacedAll body' = unplacedAll body := by
  obtain ⟨ps, written, laid⟩ := h
  have start : (Place.start region).region = region := rfl
  obtain ⟨ts, last, tokens, gives, -, hlast⟩ := laid.tokensFrom start
  have read := written.programOfTokens? gives hlast
  rw [← tokens] at read
  exact read

/-- **Reading undoes writing.**  Every way to write a program is read back as the same program up to
spans, and every program whose names and literals can be written has a way to write it for every run
of separators. -/
theorem read_written (region : Region) (body : List Stmt) :
    (∀ text, IsWrittenAs region body text →
      ∃ body', programOf? region text = .ok body' ∧ unplacedAll body' = unplacedAll body) ∧
    (AreWritable ⟨false, false⟩ body → ∀ joints, joints ≠ [] →
      IsWrittenAs region body (source region joints body)) :=
  ⟨fun _ h => h.programOf?, fun h _ hjoints => isWrittenAs_source region h hjoints⟩

/-- A branch with a loop in its second body, on a page where every statement is a code region. -/
theorem read_written_branch :
    ∃ body', programOf? .markup
        "<% if a then%><% b = 1%><% else%><% do%><% exit do%><% loop until a%><% end if%><%" =
          .ok body' ∧
      unplacedAll body' = [.branch .origin (.var .origin (.ofString "a"))
        [.assign .origin (.var .origin (.ofString "b")) (.literal .origin (.number 1))]
        [.loop .origin (.var .origin (.ofString "a")) [.exit .origin .doLoop] true true]] := by
  let a : Expr := .var .origin (.ofString "a")
  let b : Expr := .var .origin (.ofString "b")
  let body : List Stmt := [.branch .origin a [.assign .origin b (.literal .origin (.number 1))]
    [.loop .origin a [.exit .origin .doLoop] true true]]
  have first : (Name.ofString "a").IsVariable :=
    ⟨.of_chars (by decide +kernel) (by decide +kernel) (by decide +kernel), by decide +kernel⟩
  have second : (Name.ofString "b").IsVariable :=
    ⟨.of_chars (by decide +kernel) (by decide +kernel) (by decide +kernel), by decide +kernel⟩
  have number : Number.ReadsBack 1 := by
    rw [Number.ReadsBack]
    decide +kernel
  have writable : AreWritable ⟨false, false⟩ body :=
    ⟨⟨first, ⟨⟨trivial, second, number⟩, trivial⟩, ⟨first, trivial, trivial⟩, trivial⟩, trivial⟩
  have source : source .markup [.reopen] body =
      "<% if a then%><% b = 1%><% else%><% do%><% exit do%><% loop until a%><% end if%><%" := by
    decide +kernel
  have round := read_written .markup body
  have written := round.2 writable [.reopen] (List.cons_ne_nil _ _)
  exact source ▸ round.1 _ written

end Stmt

end PageScript
