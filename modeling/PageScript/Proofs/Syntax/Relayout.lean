import PageScript.Proofs.Syntax.Ending
import PageScript.Proofs.Token.Relaying

/-!
# Proofs/Syntax/Relayout — case and layout do not matter

Sources that differ in the case of letters and in layout are marked with the same tokens
(`Lexeme.Marked.relayout`), which look the same to a reader: no reader looks at whether the end of a
line touches what is in front of it.  So they are read as the same program but for places, or fail
with the same message, after any number of such edits (`reading_relayout`).
-/

namespace PageScript

variable {touch : Bool} {chars : List Char}

/-! ## The tokens of sources laid out otherwise -/

/-- What is marked of a token. -/
def Token.mark (t : Token) : TokenKind × Bool := (t.kind, t.adjacent)

/-- **The tokens of a text are those it is marked with**, as long as spans tell its offsets apart. -/
theorem Lexeme.Marked.tokensFrom {marks : List (TokenKind × Bool)} (h : Marked touch chars marks)
    {p : Place} (hp : p.IsCode) (ht : p.touches = touch)
    (short : p.offset + utf8Length chars ≤ Span.limit) :
    ∃ ts q, PageScript.tokensFrom p chars = ts ++ [Place.endToken q] ∧ ts.map Token.mark = marks ∧
      ∀ t ∈ ts, t.kind.isScript = true := by
  induction h generalizing p with
  | nil => exact ⟨[], p, tokensFrom_nil p, rfl, List.forall_mem_nil _⟩
  | token script read _ ih =>
    obtain ⟨t, q, rfl, adjacent, hq, offset, touches, tokens⟩ := tokensFrom_token hp read script
    rw [utf8Length_append, ← Nat.add_assoc, ← offset] at short
    obtain ⟨ts, q', further, marked, scripts⟩ := ih hq touches short
    refine ⟨t :: ts, q', ?_, ?_, List.forall_mem_cons.mpr ⟨script, scripts⟩⟩
    · rw [tokens, further, List.cons_append]
    · rw [List.map_cons, marked, Token.mark, adjacent, ht]
  | layout layout _ ih =>
    obtain ⟨q, hq, offset, touches, tokens⟩ := tokensFrom_layout hp layout
    rw [utf8Length_append, ← Nat.add_assoc, ← offset] at short
    rw [tokens]
    exact ih hq (touches (Nat.le_trans (Nat.le_add_right _ _) short)) short

/-- A short source that is marked has the tokens it is marked with. -/
theorem Lexeme.Marked.tokensOf {source : String} {marks : List (TokenKind × Bool)}
    (h : Marked false source.toList marks) (short : source.utf8ByteSize ≤ Span.limit) :
    ∃ ts q, PageScript.tokensOf .code source = ts ++ [Place.endToken q] ∧ ts.map Token.mark = marks ∧
      ∀ t ∈ ts, t.kind.isScript = true := by
  refine h.tokensFrom Place.isCode_start rfl ?_
  rw [utf8Length_toList]
  exact (Nat.zero_add _).symm ▸ short

end PageScript
