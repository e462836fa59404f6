import PageScript.Proofs.Syntax.Places

/-!
# Proofs/Syntax/InFront — statements on one line in front of what ends them

What the reader of a statement on one line makes of tokens on their own, it makes of them in front of
other tokens too, as long as those end a statement, and it stops where they begin
(`Stmt.IsOneLine.readsBefore`).  A reader persists (`Parse.Persists`) if it does that from two cursors
with the same tokens left, with others behind them at the second one; there is one rule for each way to
build a reader.
-/

namespace PageScript

open Parse Grammar
open Token (next nextAdjacent)

variable {rest : List Token} {c c' d d' : Cursor} {i j least : Nat}

/-- The tokens left at a cursor are left at another one, in front of others that end a statement. -/
structure Cursor.InFront (rest : List Token) (c c' : Cursor) : Prop where
  tokens : c'.rest = c.rest ++ rest
  ends : (next rest).EndsCall

/-- The test is passed by no token that ends a statement. -/
def TokenKind.Inside (test : TokenKind → Bool) : Prop := ∀ kind, kind.EndsCall → test kind = false

namespace TokenKind

theorem endsCall_endOfPage : EndsCall .endOfPage := .inl rfl

theorem inside_isSymbol {s : Symbol} (h : s ≠ .colon) : Inside (·.isSymbol s) := by
  intro kind ends
  rw [Bool.eq_false_iff]
  intro found
  obtain rfl := isSymbol_iff.mp found
  obtain ends | ends := ends
  · cases s <;> first | exact h rfl | cases ends
  · cases ends

theorem inside_isKeyword {k : Keyword} (h : k ≠ .elseWord) : Inside (·.isKeyword k) := by
  intro kind ends
  rw [Bool.eq_false_iff]
  intro found
  obtain rfl := isKeyword_iff.mp found
  obtain ends | ends := ends
  · cases ends
  · exact h (keyword.inj ends)

theorem inside_isWord (spelling : String) : Inside (·.isWord spelling) := by
  rintro kind (ends | rfl)
  · cases kind <;> first | rfl | cases ends
  · rfl

theorem inside_isZero : Inside isZero := by
  rintro kind (ends | rfl)
  · cases kind <;> first | rfl | cases ends
  · rfl

end TokenKind

theorem TokenKind.isEnd_of_inside {test : TokenKind → Bool} (inside : Inside test) {kind : TokenKind}
    (passed : test kind = true) : kind.isEnd = false := by
  cases kind with
  | endOfPage => exact absurd ((inside _ endsCall_endOfPage).symm.trans passed) Bool.false_ne_true
  | _ => rfl

namespace Cursor.InFront

/-- Either the same token is next, or one that ends a statement where the first page is over. -/
theorem kind_or (h : c.InFront rest c') :
    c'.kind = c.kind ∧ c.kind.isEnd = false ∨ c.kind = .endOfPage ∧ c'.kind.EndsCall := by
  obtain ⟨ts, p⟩ := c
  obtain ⟨us, q⟩ := c'
  obtain rfl : us = ts ++ rest := h.tokens
  cases ts with
  | nil => exact .inr ⟨rfl, Cursor.kind_mk_eq rest q ▸ h.ends⟩
  | cons t ts =>
    change t.kind = t.kind ∧ t.kind.isEnd = false ∨ t.kind = .endOfPage ∧ t.kind.EndsCall
    cases t.kind with
    | endOfPage => exact .inr ⟨rfl, TokenKind.endsCall_endOfPage⟩
    | _ => exact .inl ⟨rfl, rfl⟩

theorem test_eq (h : c.InFront rest c') {test : TokenKind → Bool} (inside : TokenKind.Inside test) :
    test c'.kind = test c.kind := by
  obtain ⟨same, -⟩ | ⟨none, ends⟩ := h.kind_or
  · rw [same]
  · rw [none, inside _ ends, inside _ TokenKind.endsCall_endOfPage]

theorem exists_cons (h : c.InFront rest c') (goes : c.kind.isEnd = false) : ∃ t ts p q,
    c = ⟨t :: ts, p⟩ ∧ c' = ⟨t :: (ts ++ rest), q⟩ ∧ t.kind.isEnd = false := by
  obtain ⟨ts, p⟩ := c
  obtain ⟨us, q⟩ := c'
  obtain rfl : us = ts ++ rest := h.tokens
  cases ts with
  | nil => cases goes
  | cons t ts => exact ⟨t, ts, p, q, rfl, rfl, goes⟩

theorem isAdjacent_eq (h : c.InFront rest c') (goes : c.kind.isEnd = false) :
    c'.isAdjacent = c.isAdjacent := by
  obtain ⟨t, ts, p, q, rfl, rfl, -⟩ := h.exists_cons goes
  rfl

theorem advance (h : c.InFront rest c') (goes : c.kind.isEnd = false) :
    c.advance.InFront rest c'.advance ∧ c.advance.rest.length + 1 = c.rest.length := by
  obtain ⟨t, ts, p, q, rfl, rfl, inside⟩ := h.exists_cons goes
  rw [Cursor.advance_cons inside, Cursor.advance_cons inside]
  exact ⟨⟨rfl, h.ends⟩, rfl⟩

end Cursor.InFront

namespace Parse

variable {α β γ δ : Type} {p : Parse α} {p' : Parse β} {R : α → β → Prop} {f : α → Parse γ}
  {g : β → Parse δ} {R' : γ → δ → Prop} {a : α} {b : β}

/-- What one reader reads from a cursor, the other one reads from a second cursor where more tokens
stand behind, and it stops in front of them.  So many tokens are taken at least. -/
def Persists (rest : List Token) (least : Nat) (R : α → β → Prop) (p : Parse α) (p' : Parse β)
    (c c' : Cursor) : Prop :=
  ∀ a d, p c = .ok (a, d) → ∃ b d', p' c' = .ok (b, d') ∧ R a b ∧ d.InFront rest d' ∧
    d.rest.length + least ≤ c.rest.length

/-- Nothing is said about the results. -/
abbrev Whatever : α → β → Prop := fun _ _ => True

namespace Persists

theorem mono (h : Persists rest i R p p' c c') {R' : α → β → Prop} (hR : ∀ a b, R a b → R' a b)
    (hle : j ≤ i) : Persists rest j R' p p' c c' := by
  intro a d ha
  obtain ⟨b, d', hb, same, onward, less⟩ := h a d ha
  exact ⟨b, d', hb, hR a b same, onward, Nat.le_trans (Nat.add_le_add_left hle _) less⟩

theorem loosen (h : Persists rest i R p p' c c') : Persists rest 0 R p p' c c' :=
  h.mono (fun _ _ => id) (Nat.zero_le _)

/-- Both go on with readers that persist, and it is known how many tokens have been taken. -/
theorem bindTaken (h : Persists rest i R p p' c c')
    (hnext : ∀ a b d d', R a b → d.InFront rest d' → d.rest.length + i ≤ c.rest.length →
      Persists rest j R' (f a) (g b) d d') :
    Persists rest (i + j) R' (p >>= f) (p' >>= g) c c' := by
  intro r e hr
  obtain ⟨a, d, ha, hr⟩ := exists_of_bind hr
  obtain ⟨b, d', hb, same, onward, less⟩ := h a d ha
  obtain ⟨s, e', hs, same', onward', less'⟩ := hnext a b d d' same onward less r e hr
  exact ⟨s, e', (bind_of_ok hb).trans hs, same', onward', by omega⟩

theorem bind (h : Persists rest i R p p' c c')
    (hnext : ∀ a b d d', R a b → d.InFront rest d' → Persists rest j R' (f a) (g b) d d') :
    Persists rest i R' (p >>= f) (p' >>= g) c c' :=
  (h.bindTaken fun a b d d' same onward _ => hnext a b d d' same onward).mono (fun _ _ => id)
    (Nat.le_add_right _ _)

/-- Both go on with the same result. -/
theorem bindSame {p p' : Parse α} {f : α → Parse γ} {g : α → Parse δ}
    (h : Persists rest i Eq p p' c c')
    (hnext : ∀ a d d', d.InFront rest d' → Persists rest j R' (f a) (g a) d d') :
    Persists rest i R' (p >>= f) (p' >>= g) c c' :=
  h.bind fun a b d d' same onward => by
    subst same
    exact hnext a d d' onward

theorem ite {t : Prop} [Decidable t] {q : Parse α} {q' : Parse β}
    (h : Persists rest least R p p' c c') (h' : Persists rest least R q q' c c') :
    Persists rest least R (if t then p else q) (if t then p' else q') c c' := by
  split
  · exact h
  · exact h'

end Persists

theorem persists_pure (h : c.InFront rest c') (same : R a b) :
    Persists rest 0 R (pure a) (pure b) c c' := by
  rintro _ _ ⟨⟩
  exact ⟨b, c', rfl, same, h, Nat.le_refl _⟩

theorem persists_expected (item : String) : Persists rest least R (expected item) p' c c' := nofun

/-! ## Looking at the tokens -/

/-- Both readers see the same token, or the second one sees one that ends a statement. -/
theorem persists_kind {f : TokenKind → Parse γ} {g : TokenKind → Parse δ} (h : c.InFront rest c')
    (goes : ∀ k, c.kind = k → k.isEnd = false → Persists rest least R' (f k) (g k) c c')
    (ended : ∀ k, k.EndsCall → Persists rest least R' (f .endOfPage) (g k) c c') :
    Persists rest least R' (kind >>= f) (kind >>= g) c c' := by
  have both : Persists rest least R' (f c.kind) (g c'.kind) c c' := by
    obtain ⟨same, inside⟩ | ⟨none, ends⟩ := h.kind_or
    · rw [same]
      exact goes _ rfl inside
    · exact none ▸ ended _ ends
  exact both

/-- Both readers see the same of a token that stands inside a statement. -/
theorem persists_test {test : TokenKind → Bool} {q : Parse α} {q' : Parse β} (h : c.InFront rest c')
    (inside : TokenKind.Inside test) (yes : Persists rest least R p p' c c')
    (no : Persists rest least R q q' c c') :
    Persists rest least R (kind >>= fun k => if test k then p else q)
      (kind >>= fun k => if test k then p' else q') c c' := by
  have both : Persists rest least R (if test c.kind then p else q)
      (if test c'.kind then p' else q') c c' := by
    rw [h.test_eq inside]
    exact .ite yes no
  exact both

theorem persists_get {f : Cursor → Parse γ} {g : Cursor → Parse δ}
    (hnext : Persists rest least R' (f c) (g c') c c') :
    Persists rest least R' (get >>= f) (get >>= g) c c' :=
  hnext

theorem persists_span {f : Span → Parse γ} {g : Span → Parse δ}
    (hnext : ∀ s s', Persists rest least R' (f s) (g s') c c') :
    Persists rest least R' (span >>= f) (span >>= g) c c' :=
  hnext _ _

theorem persists_previous {f : Span → Parse γ} {g : Span → Parse δ}
    (hnext : ∀ s s', Persists rest least R' (f s) (g s') c c') :
    Persists rest least R' (previous >>= f) (previous >>= g) c c' :=
  hnext _ _

/-! ## Taking tokens -/

theorem persists_advance (h : c.InFront rest c') (goes : c.kind.isEnd = false) :
    Persists rest 1 Whatever advance advance c c' := by
  rintro _ _ ⟨⟩
  obtain ⟨onward, less⟩ := h.advance goes
  exact ⟨_, _, rfl, trivial, onward, Nat.le_of_eq less⟩

/-- A token that passes a test is taken at both places, or at none. -/
theorem persists_accept {test : TokenKind → Bool} {f : Bool → Parse γ} {g : Bool → Parse δ}
    (h : c.InFront rest c') (inside : TokenKind.Inside test)
    (yes : ∀ d d', d.InFront rest d' → d.rest.length + 1 = c.rest.length →
      Persists rest (least - 1) R' (f true) (g true) d d')
    (no : Persists rest least R' (f false) (g false) c c') :
    Persists rest least R' (accept test >>= f) (accept test >>= g) c c' := by
  intro r e hr
  have same := h.test_eq inside
  cases found : test c.kind with
  | true =>
    rw [bind_of_ok (accept_yes found)] at hr
    rw [bind_of_ok (accept_yes (same.trans found))]
    obtain ⟨onward, less⟩ := h.advance (TokenKind.isEnd_of_inside inside found)
    obtain ⟨s, e', hs, same', onward', less'⟩ := yes _ _ onward less r e hr
    exact ⟨s, e', hs, same', onward', by omega⟩
  | false =>
    rw [bind_of_ok (accept_no found)] at hr
    rw [bind_of_ok (accept_no (same.trans found))]
    exact no r e hr

theorem persists_require {item : String} {test : TokenKind → Bool} (h : c.InFront rest c')
    (inside : TokenKind.Inside test) :
    Persists rest 1 Whatever (require item test) (require item test) c c' := by
  refine persists_kind h (fun k hk goes => .ite (persists_advance h (hk ▸ goes)) (persists_expected _))
    fun k _ => ?_
  rw [if_neg (inside _ TokenKind.endsCall_endOfPage ▸ Bool.false_ne_true)]
  exact persists_expected _

theorem persists_requireKeyword (k : Keyword) (h : c.InFront rest c') (other : k ≠ .elseWord) :
    Persists rest 1 Whatever (requireKeyword k) (requireKeyword k) c c' :=
  persists_require h (TokenKind.inside_isKeyword other)

theorem persists_requireSymbol (s : Symbol) (h : c.InFront rest c') (other : s ≠ .colon) :
    Persists rest 1 Whatever (requireSymbol s) (requireSymbol s) c c' :=
  persists_require h (TokenKind.inside_isSymbol other)

theorem persists_requireWord (spelling : String) (h : c.InFront rest c') :
    Persists rest 1 Whatever (requireWord spelling) (requireWord spelling) c c' :=
  persists_require h (TokenKind.inside_isWord spelling)

/-- A token is taken, and the result does not depend on it. -/
theorem persists_taken (h : c.InFront rest c') (goes : c.kind.isEnd = false) (same : R a b) :
    Persists rest 1 R (advance >>= fun _ => pure a) (advance >>= fun _ => pure b) c c' :=
  (persists_advance h goes).bind fun _ _ _ _ _ onward => persists_pure onward same

theorem persists_identifier (h : c.InFront rest c') :
    Persists rest 1 Eq identifier identifier c c' := by
  refine persists_kind h (fun k hk goes => ?_) fun _ _ => persists_expected _
  split
  · exact persists_taken h (hk ▸ goes) rfl
  · exact persists_expected _

/-- A reserved word may be a member's name, `else` as well, but it stands among the tokens then. -/
theorem persists_memberName (h : c.InFront rest c') :
    Persists rest 1 Eq memberName memberName c c' := by
  refine persists_kind h (fun k hk goes => ?_) fun _ _ => persists_expected _
  split
  · exact persists_taken h (hk ▸ goes) rfl
  · exact persists_taken h (hk ▸ goes) rfl
  · exact persists_expected _

/-! ## Items behind commas -/

theorem inside_comma : TokenKind.Inside (·.isSymbol .comma) := TokenKind.inside_isSymbol nofun

/-- As long as no fewer are counted than tokens are left, all items are read at both places. -/
theorem persists_commaSeparated
    (hitem : ∀ {c c' : Cursor}, c.InFront rest c' → Persists rest 1 R p p' c c') :
    ∀ {n n' : Nat} {c c' : Cursor}, c.InFront rest c' → c.rest.length ≤ n → n ≤ n' →
      Persists rest 1 (List.Forall₂ R) (commaSeparated p n) (commaSeparated p' n') c c' := by
  intro n
  induction n with
  | zero =>
    intro n' c c' h few _ as d hd
    obtain ⟨a, e, ha, -⟩ := exists_of_bind hd
    obtain ⟨_, _, _, _, _, less⟩ := hitem h a e ha
    omega
  | succ n ih =>
    intro n' c c' h few le
    obtain ⟨n', rfl⟩ : ∃ m, n' = m + 1 := ⟨n' - 1, by omega⟩
    refine (hitem h).bindTaken (j := 0) fun a b d d' same onward less => ?_
    refine persists_accept onward inside_comma (fun e e' onward less' => ?_)
      (persists_pure onward (.cons same .nil))
    exact ((ih onward (by omega) (by omega)).bind (j := 0) fun as bs _ _ all onward =>
      persists_pure onward (.cons same all)).loosen

theorem persists_remaining {f : Nat → Parse γ} {g : Nat → Parse δ} (h : c.InFront rest c')
    (hnext : ∀ n n', c.rest.length ≤ n → c'.rest.length ≤ n' → n ≤ n' →
      Persists rest least R' (f n) (g n') c c') :
    Persists rest least R' (remaining >>= f) (remaining >>= g) c c' :=
  hnext _ _ (Nat.le_refl _) (Nat.le_refl _) (by rw [h.tokens, List.length_append]; omega)

theorem persists_commaList (h : c.InFront rest c')
    (hitem : ∀ {c c' : Cursor}, c.InFront rest c' → Persists rest 1 R p p' c c') :
    Persists rest 1 (List.Forall₂ R) (commaList p) (commaList p') c c' :=
  persists_remaining h fun _ _ few _ le => persists_commaSeparated hitem h few le

/-! ## Expressions and chains -/

/-- Where expressions have been read, a derivation is led over to the other place. -/
theorem persists_parse (h : c.InFront rest c') :
    Persists rest 1 Expr.Same Expr.parse Expr.parse c c' := by
  intro e d parsed
  obtain ⟨ts, p⟩ := c
  obtain ⟨us, q⟩ := c'
  obtain rfl : us = ts ++ rest := h.tokens
  have expression := expression_of_parse (Nat.le_refl _) parsed
  obtain ⟨e', q', same, parsed'⟩ := (expression.append fun _ => h.ends.stopsList).parse q
  exact ⟨e', _, parsed', same, ⟨rfl, h.ends⟩, expression.takes.length_le⟩

/-- Arguments up to places. -/
abbrev SameArgs (args args' : List Arg) : Prop := Expr.unplacedArgs args' = Expr.unplacedArgs args

theorem persists_arguments (h : c.InFront rest c') :
    Persists rest 1 SameArgs (commaList (argument Expr.parse)) (commaList (argument Expr.parse))
      c c' := by
  intro args d parsed
  obtain ⟨ts, p⟩ := c
  obtain ⟨us, q⟩ := c'
  obtain rfl : us = ts ++ rest := h.tokens
  have arguments := arguments_of_commaList expression_of_parse (Nat.le_refl _) parsed
  obtain ⟨args', q', same, parsed'⟩ := (arguments.append fun _ => h.ends.stopsList).read
    complete_parse (Nat.le_refl _) (Nat.le_refl _) q
  exact ⟨args', _, parsed', same, ⟨rfl, h.ends⟩, arguments.takes.length_le⟩

theorem persists_chainHead (h : c.InFront rest c') :
    Persists rest 1 Expr.Same chainHead chainHead c c' := by
  refine persists_span fun s s' => persists_kind h (fun k hk goes => ?_) fun _ _ => persists_expected _
  split
  · exact persists_taken h (hk ▸ goes) rfl
  · exact (persists_advance h (hk ▸ goes)).bind fun _ _ _ _ _ onward =>
      (persists_memberName onward).bindSame fun _ _ _ onward =>
        persists_previous fun _ _ => persists_pure onward rfl
  · exact persists_expected _

/-- The places before the last parentheses of two chains. -/
abbrev OpenedAlike (rest : List Token) : Option Cursor → Option Cursor → Prop :=
  Option.Rel fun before before' => before.InFront rest before'

/-- The same chains, with the places before their last parentheses. -/
abbrev SameChain (rest : List Token) (x y : Expr × Option Cursor) : Prop :=
  x.1.Same y.1 ∧ OpenedAlike rest x.2 y.2

theorem same_member {chain chain' : Expr} (same : chain.Same chain') (s s' : Span) (name : Name) :
    (Expr.member s chain name).Same (.member s' chain' name) :=
  congrArg (Expr.member .origin · name) same

theorem same_call {chain chain' : Expr} (same : chain.Same chain') {args args' : List Arg}
    (sameArgs : SameArgs args args') (s s' : Span) :
    (Expr.call s chain args).Same (.call s' chain' args') :=
  congrArg₂ (Expr.call .origin) same sameArgs

theorem persists_links : ∀ {n n' : Nat} {chain chain' : Expr} {opening opening' : Option Cursor}
    {c c' : Cursor}, c.InFront rest c' → c.rest.length ≤ n → n ≤ n' → chain.Same chain' →
      OpenedAlike rest opening opening' → Persists rest 0 (SameChain rest)
        (links Expr.parse n chain opening) (links Expr.parse n' chain' opening') c c' := by
  intro n
  induction n with
  | zero =>
    intro n' chain chain' opening opening' c c' h few _ same opens _ _ done
    cases done
    -- No token is left, so the chain ends at the other place as well.
    have none : c.rest = [] := List.eq_nil_of_length_eq_zero (Nat.le_zero.mp few)
    have tokens := h.tokens
    rw [none] at tokens
    obtain ⟨us, q⟩ := c'
    obtain rfl : us = rest := tokens
    exact ⟨_, _, links_end h.ends.stopsList.lparen fun dot => absurd dot h.ends.stopsList.dot,
      ⟨same, opens⟩, h, Nat.le_refl _⟩
  | succ n ih =>
    intro n' chain chain' opening opening' c c' h few le same opens
    obtain ⟨n', rfl⟩ : ∃ m, n' = m + 1 := ⟨n' - 1, by omega⟩
    have stop : Persists rest 0 (SameChain rest) (pure (chain, opening)) (pure (chain', opening'))
        c c' :=
      persists_pure h ⟨same, opens⟩
    unfold links
    refine persists_get ?_
    obtain ⟨kind, goes⟩ | ⟨none, ends⟩ := h.kind_or
    · rw [kind]
      cases hk : c.kind with
      | symbol sign =>
        cases sign with
        | dot =>
          dsimp only
          rw [h.isAdjacent_eq goes]
          refine .ite ?_ stop
          refine ((persists_advance h goes).bindTaken (j := 0) fun _ _ d d' _ onward less => ?_).loosen
          refine ((persists_memberName onward).bindTaken (j := 0)
            fun name _ e e' sameName onward' less' => ?_).loosen
          obtain rfl := sameName
          exact persists_previous fun s s' =>
            ih onward' (by omega) (by omega) (same_member same _ _ name) .none
        | lparen =>
          dsimp only
          -- Behind the arguments more links may follow.
          have behind {args args' : List Arg} (sameArgs : SameArgs args args') {d d' : Cursor}
              (onward : d.InFront rest d') (less : d.rest.length + 1 ≤ c.rest.length) :
              Persists rest 0 (SameChain rest) (do
                  let _ ← requireSymbol .rparen
                  let s := chain.span.merge (← previous)
                  links Expr.parse n (.call s chain args) (some c))
                (do
                  let _ ← requireSymbol .rparen
                  let s := chain'.span.merge (← previous)
                  links Expr.parse n' (.call s chain' args') (some c')) d d' := by
            refine ((persists_requireSymbol .rparen onward nofun).bindTaken (j := 0)
              fun _ _ e e' _ onward less' => ?_).loosen
            exact persists_previous fun s s' =>
              ih onward (by omega) (by omega) (same_call same sameArgs _ _) (.some h)
          refine ((persists_advance h goes).bindTaken (j := 0) fun _ _ d d' _ onward less => ?_).loosen
          refine persists_get ?_
          have empty : (d'.kind.isSymbol .rparen && d'.isAdjacent) =
              (d.kind.isSymbol .rparen && d.isAdjacent) := by
            have inside : TokenKind.Inside (·.isSymbol .rparen) := TokenKind.inside_isSymbol nofun
            rw [onward.test_eq inside]
            cases closed : d.kind.isSymbol .rparen with
            | true => rw [onward.isAdjacent_eq (TokenKind.isEnd_of_inside inside closed)]
            | false => rfl
          rw [empty]
          split
          · exact behind rfl onward less
          · exact ((persists_arguments onward).bindTaken fun args args' e e' sameArgs onward' less' =>
              behind sameArgs onward' (by omega)).loosen
        | _ => exact stop
      | _ => exact stop
    · rw [none]
      have stopped : links Expr.parse (n' + 1) chain' opening' c' = .ok ((chain', opening'), c') := by
        obtain ⟨us, q⟩ := c'
        have ends := (Cursor.kind_mk_eq us q ▸ ends).stopsList
        exact links_end ends.lparen fun dot => absurd dot ends.dot
      rintro _ _ ⟨⟩
      exact ⟨_, _, stopped, ⟨same, opens⟩, h, Nat.le_refl _⟩

end Parse

end PageScript
