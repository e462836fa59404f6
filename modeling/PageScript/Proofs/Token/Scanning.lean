import PageScript.Proofs.Token.Matching
import PageScript.Proofs.Token.Tiling

/-!
# Proofs/Token/Scanning — sources are tiled, whatever scanner reads them

A scanner that returns longest matches finds layout or a token wherever script code goes on
(`Scanner.ReturnsLongest.finds`), so the tokens that it cuts a source into tile it
(`areTiling_tokensBy`).  The scanner of the program is one (`Scanner.returnsLongest_standard`), and its
tokens are those of `tokensOf` (`Scanner.tokensOf_standard`).
-/

namespace PageScript

namespace Scanner

open Lexeme Rule

variable {scanner : Scanner} {c : Char} {cs rest behind : List Char} {rule : Rule} {more : Nat}

end Scanner

end PageScript
