import PageScript.Proofs.Syntax.Printing

/-!
# Proofs/Syntax/RoundTrip — expressions written as source and read back

A text is a writing of an expression (`Expr.IsWrittenAs`) if it is laid out from pieces that write
it, with the parentheses that the binding strengths ask for and any more.  Cutting it into tokens
gives the tokens of the pieces, and reading these gives the expression (`Expr.parse_written`).
-/

namespace PageScript.Expr

/-- The text is a way to write the expression. -/
def IsWrittenAs (e : Expr) (text : String) : Prop :=
  ∃ ps, WrittenAt 0 e ps ∧ IsLaidOut ps text

variable {e : Expr} {text : String}

/-- The source of an expression is a way to write it. -/
theorem isWrittenAs_source (h : e.IsWritable) : e.IsWrittenAs e.source := by
  have bare := bare_pieces e [] h
  have neat := neat_pieces e isBlank_nil h
  refine ⟨e.pieces [], .bare (Nat.zero_le _) bare, neat.spelled, neat.apart, [], nofun, ?_⟩
  rw [source, String.toList_ofList, List.append_nil]

example : (Expr.unary .origin .neg (.literal .origin (.number 2))).source = "-(2)" := by
  decide +kernel

/-- What is written is read. -/
theorem IsWrittenAs.ofTokens? (h : e.IsWrittenAs text) :
    ∃ e', Expr.ofTokens? (tokensOf .code text) = .ok e' ∧ e'.unplaced = e.unplaced := by
  obtain ⟨ps, written, laidOut⟩ := h
  obtain ⟨ts, last, tokens, gives, hlast⟩ := laidOut.tokensOf
  rw [tokens]
  exact written.ofTokens? gives hlast

/-- **Reading undoes writing.**  An expression whose names and literals can be written is written by
its source, and every way to write it is read back as the same expression up to spans. -/
theorem parse_written (e : Expr) (h : e.IsWritable) :
    e.IsWrittenAs e.source ∧
      ∀ text, e.IsWrittenAs text →
        ∃ e', Expr.ofTokens? (tokensOf .code text) = .ok e' ∧ e'.unplaced = e.unplaced :=
  ⟨isWrittenAs_source h, fun _ hwritten => hwritten.ofTokens?⟩

/-- A signed call with an argument by value, and a string of one quote. -/
theorem parse_written_call :
    ∃ e', Expr.ofTokens? (tokensOf .code "-a.next((-2.5)) & \"\"\"\"") = .ok e' ∧
      e'.unplaced = .binary .origin .concat
        (.unary .origin .neg (.call .origin
          (.member .origin (.var .origin (.ofString "a")) (.ofString "Next"))
          [.mk (.literal .origin (.number (-2.5))) true]))
        (.literal .origin (.string "\"")) := by
  let call : Expr := .call .origin
    (.member .origin (.var .origin (.ofString "a")) (.ofString "Next"))
    [.mk (.literal .origin (.number (-2.5))) true]
  let e : Expr := .binary .origin .concat (.unary .origin .neg call)
    (.literal .origin (.string "\""))
  have name : (Name.ofString "a").IsMember :=
    .of_chars (by decide +kernel) (by decide +kernel) (by decide +kernel)
  have member : (Name.ofString "Next").IsMember :=
    .of_chars (by decide +kernel) (by decide +kernel) (by decide +kernel)
  have number : Number.ReadsBack (-2.5) := by
    rw [Number.ReadsBack]
    decide +kernel
  have string : '\n' ∉ "\"".toList := by decide +kernel
  have writable : e.IsWritable :=
    ⟨⟨⟨⟨name, by decide +kernel⟩, member⟩, number, trivial⟩, string⟩
  have source : e.source = "-a.next((-2.5)) & \"\"\"\"" := by decide +kernel
  have round := parse_written e writable
  exact source ▸ round.2 e.source round.1

end PageScript.Expr
