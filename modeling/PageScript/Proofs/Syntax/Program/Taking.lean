import PageScript.Proofs.Syntax.Reading
import PageScript.Syntax.Stmt.Parser.Block

/-!
# Proofs/Syntax/Program/Taking — readers that take what is written

`m.Takes ps follow result` says of a reader `m` that in front of tokens of the pieces `ps` it takes
exactly these, and that what it reads is a result of a certain kind, provided that the token behind
them is one that may follow.  There is one rule for each step that a reader can make: the reader on
the left starts with the step, and what is left to show is about the rest of the reader and the rest
of the pieces.
-/

namespace PageScript

namespace TokenKind

variable {kind : TokenKind} {word word' : String}

theorem isEnd_of_isWord (h : kind.isWord word = true) : kind.isEnd = false := by
  cases kind <;> first | rfl | cases h

theorem ne_keyword_of_isWord {k : Keyword} (h : kind.isWord word = true) : kind ≠ .keyword k := by
  rintro rfl
  cases h

/-- A word is no other one. -/
theorem isWord_of_ne (h : kind.isWord word = true) (hne : foldCase word ≠ foldCase word') :
    kind.isWord word' = false := by
  cases kind with
  | ident name =>
    rw [Bool.eq_false_iff]
    intro h'
    exact hne ((eq_of_beq h).symm.trans (eq_of_beq h'))
  | _ => rfl

end TokenKind

namespace Parse

variable {α β γ : Type} {m : Parse α} {f : α → Parse β} {p : Piece} {ps qs : List Piece}
  {follow follow' good : TokenKind → Prop} {result : α → Prop} {result' : β → Prop}

/-- In front of tokens of pieces, and of a token that may follow, a reader takes the tokens of the
pieces and has a result of a certain kind. -/
def Takes (m : Parse α) (ps : List Piece) (follow : TokenKind → Prop) (result : α → Prop) : Prop :=
  ∀ ⦃ts rest : List Token⦄ ⦃s : Span⦄, Piece.GiveAll ps ts → follow (Cursor.mk rest .origin).kind →
    ∃ a s', result a ∧ m ⟨ts ++ rest, s⟩ = .ok (a, ⟨rest, s'⟩)

/-- What stands behind is of a good kind, be it the first of some pieces or what follows them. -/
def Ahead (ps : List Piece) (follow good : TokenKind → Prop) : Prop :=
  match ps with
  | [] => ∀ kind, follow kind → good kind
  | p :: _ => good p.kind

/-! ## Tokens of pieces -/

theorem kind_mk (ts : List Token) (s : Span) :
    (Cursor.mk ts s).kind = (Cursor.mk ts .origin).kind := by
  cases ts <;> rfl

theorem kind_cons_append (t : Token) (ts rest : List Token) (s : Span) :
    (Cursor.mk (t :: ts ++ rest) s).kind = t.kind := rfl

/-- The token that pieces and what follows them start with. -/
theorem Ahead.kind {ts rest : List Token} (h : Ahead ps follow good) (hts : Piece.GiveAll ps ts)
    (hrest : follow (Cursor.mk rest .origin).kind) (s : Span) :
    good (Cursor.mk (ts ++ rest) s).kind := by
  cases ps with
  | nil =>
    obtain rfl := hts
    exact kind_mk rest s ▸ h _ hrest
  | cons p ps =>
    obtain ⟨t, us, rfl, ht, -⟩ := hts
    rw [kind_cons_append, ht]
    exact h

theorem Ahead.of_kind {kind : TokenKind} (hp : p.kind = kind) (h : good kind) :
    Ahead (p :: ps) follow good := by
  subst hp
  exact h

theorem Ahead.trivial : Ahead ps follow fun _ => True := by
  cases ps with
  | nil => exact fun _ _ => True.intro
  | cons => exact True.intro

theorem Ahead.imp {good' : TokenKind → Prop} (h : Ahead ps follow good)
    (himp : ∀ kind, good kind → good' kind) : Ahead ps follow good' := by
  cases ps with
  | nil => exact fun kind hkind => himp kind (h kind hkind)
  | cons p ps => exact himp p.kind h

theorem giveAll_append {ts : List Token} (h : Piece.GiveAll (ps ++ qs) ts) :
    ∃ ts₁ ts₂, ts = ts₁ ++ ts₂ ∧ Piece.GiveAll ps ts₁ ∧ Piece.GiveAll qs ts₂ := by
  cases ps with
  | nil => exact ⟨[], ts, rfl, rfl, h⟩
  | cons p ps =>
    obtain ⟨ts₁, ts₂, rfl, h₁, h₂⟩ := h.append (List.cons_ne_nil p ps)
    exact ⟨ts₁, ts₂, rfl, h₁, .of_forall₂ h₂⟩

theorem giveAll_cons {ts : List Token} (h : Piece.GiveAll (p :: ps) ts) :
    ∃ t us, ts = t :: us ∧ t.kind = p.kind ∧ Piece.GiveAll ps us := by
  obtain ⟨t, us, rfl, ht, hus⟩ := h
  exact ⟨t, us, rfl, ht, .of_forall₂ hus⟩

/-! ## Readers one behind the other -/

namespace Takes

theorem run {ts : List Token} (hm : Takes m ps follow result) (rest : List Token) (s : Span)
    (hts : Piece.GiveAll ps ts) (hrest : follow (Cursor.mk rest .origin).kind) :
    ∃ a s', result a ∧ m ⟨ts ++ rest, s⟩ = .ok (a, ⟨rest, s'⟩) :=
  hm hts hrest

theorem pure {a : α} (h : result a) : Takes (Pure.pure a) [] follow result := by
  rintro ts rest s rfl -
  exact ⟨a, s, h, rfl⟩

theorem pure_bind {a : α} (hf : Takes (f a) ps follow result') :
    Takes (Pure.pure a >>= f) ps follow result' :=
  hf

theorem bind (hm : Takes m ps follow' result)
    (hf : ∀ a, result a → Takes (f a) qs follow result') (ahead : Ahead qs follow follow') :
    Takes (m >>= f) (ps ++ qs) follow result' := by
  intro ts rest s hts hrest
  obtain ⟨ts₁, ts₂, rfl, h₁, h₂⟩ := giveAll_append hts
  obtain ⟨a, s', ha, hrun⟩ := hm (s := s) h₁ (ahead.kind h₂ hrest .origin)
  obtain ⟨b, s'', hb, hrun'⟩ := hf a ha (s := s') h₂ hrest
  refine ⟨b, s'', hb, ?_⟩
  rw [List.append_assoc, bind_of_ok hrun, hrun']

/-- A reader at the end. -/
theorem bind_last (hm : Takes m ps follow result)
    (hf : ∀ a, result a → Takes (f a) [] follow result') :
    Takes (m >>= f) ps follow result' :=
  List.append_nil ps ▸ hm.bind hf fun _ h => h

/-- A reader at the front that takes nothing. -/
theorem bind_nil (hm : Takes m [] follow' result)
    (hf : ∀ a, result a → Takes (f a) ps follow result') (ahead : Ahead ps follow follow') :
    Takes (m >>= f) ps follow result' :=
  bind hm hf ahead

theorem map {g : α → β} (hm : Takes m ps follow result) :
    Takes (g <$> m) ps follow fun b => ∃ a, result a ∧ b = g a := by
  intro ts rest s hts hrest
  obtain ⟨a, s', ha, hrun⟩ := hm (s := s) hts hrest
  refine ⟨g a, s', ⟨a, ha, rfl⟩, ?_⟩
  change (Bind.bind (m ⟨ts ++ rest, s⟩) fun x => Except.ok (g x.1, x.2)) = _
  rw [hrun]
  rfl

theorem mono (hm : Takes m ps follow' result) (hfollow : ∀ kind, follow kind → follow' kind) :
    Takes m ps follow result :=
  fun _ _ _ hts hrest => hm hts (hfollow _ hrest)

theorem imp {result' : α → Prop} (hm : Takes m ps follow result) (h : ∀ a, result a → result' a) :
    Takes m ps follow result' := by
  intro ts rest s hts hrest
  obtain ⟨a, s', ha, hrun⟩ := hm (s := s) hts hrest
  exact ⟨a, s', h a ha, hrun⟩

theorem if_true {c : Prop} [Decidable c] {m' : Parse α} (hc : c) (hm : Takes m ps follow result) :
    Takes (if c then m else m') ps follow result := by
  rw [if_pos hc]
  exact hm

theorem if_false {c : Prop} [Decidable c] {m' : Parse α} (hc : ¬c)
    (hm : Takes m' ps follow result) : Takes (if c then m else m') ps follow result := by
  rw [if_neg hc]
  exact hm

/-! ## Steps that take nothing -/

/-- A step that only looks, whatever it sees. -/
theorem look {g : Cursor → α} {f : α → Parse β}
    (hf : ∀ ⦃ts rest : List Token⦄ ⦃s : Span⦄, Piece.GiveAll ps ts →
      follow (Cursor.mk rest .origin).kind → Takes (f (g ⟨ts ++ rest, s⟩)) ps follow result') :
    Takes ((fun c => .ok (g c, c) : Parse α) >>= f) ps follow result' :=
  fun _ _ _ hts hrest => hf hts hrest hts hrest

theorem span {f : Span → Parse β} (hf : ∀ s, Takes (f s) ps follow result') :
    Takes (Parse.span >>= f) ps follow result' :=
  look fun _ _ _ _ _ => hf _

theorem previous {f : Span → Parse β} (hf : ∀ s, Takes (f s) ps follow result') :
    Takes (Parse.previous >>= f) ps follow result' :=
  look fun _ _ _ _ _ => hf _

/-- At least as many tokens are left as there are pieces. -/
theorem remaining {f : Nat → Parse β}
    (hf : ∀ n, ps.length ≤ n → Takes (f n) ps follow result') :
    Takes (Parse.remaining >>= f) ps follow result' := by
  refine look fun ts rest s hts _ => hf _ ?_
  change ps.length ≤ (ts ++ rest).length
  rw [List.length_append, hts.length]
  exact Nat.le_add_right _ _

theorem kind {f : TokenKind → Parse β} (hf : Takes (f p.kind) (p :: ps) follow result') :
    Takes (Parse.kind >>= f) (p :: ps) follow result' := by
  refine look fun ts rest s hts _ => ?_
  obtain ⟨t, us, rfl, ht, -⟩ := giveAll_cons hts
  rw [kind_cons_append, ht]
  exact hf

/-- What is decided by the kind of the next token, wherever it comes from. -/
theorem kind_ahead {f : TokenKind → Parse β} (ahead : Ahead ps follow good)
    (hf : ∀ k, good k → Takes (f k) ps follow result') :
    Takes (Parse.kind >>= f) ps follow result' :=
  look fun _ _ _ hts hrest => hf _ (ahead.kind hts hrest _)

/-- A step that looks at the next token, wherever it comes from. -/
theorem get_ahead {f : Cursor → Parse β} (ahead : Ahead ps follow good)
    (hf : ∀ c : Cursor, good c.kind → Takes (f c) ps follow result') :
    Takes (MonadStateOf.get >>= f) ps follow result' :=
  look (g := id) fun _ _ _ hts hrest => hf _ (ahead.kind hts hrest _)

/-- A step that looks at two tokens. -/
theorem get {f : Cursor → Parse β} (ahead : Ahead ps follow good)
    (hf : ∀ c : Cursor, c.kind = p.kind → good c.nextKind → Takes (f c) (p :: ps) follow result') :
    Takes (MonadStateOf.get >>= f) (p :: ps) follow result' := by
  refine look (g := id) fun ts rest s hts hrest => ?_
  obtain ⟨t, us, rfl, ht, hus⟩ := giveAll_cons hts
  refine hf _ ht ?_
  have next : (Cursor.mk (t :: (us ++ rest)) s).nextKind = (Cursor.mk (us ++ rest) s).kind := by
    cases us ++ rest <;> rfl
  exact next ▸ ahead.kind hus hrest s

/-- A token that is not there is not taken. -/
theorem accept_false {test : TokenKind → Bool} {f : Bool → Parse β}
    (ahead : Ahead ps follow fun k => test k = false) (hf : Takes (f false) ps follow result') :
    Takes (accept test >>= f) ps follow result' := by
  intro ts rest s hts hrest
  have other : test (Cursor.mk (ts ++ rest) s).kind = false := ahead.kind hts hrest s
  have run : accept test ⟨ts ++ rest, s⟩ = .ok (false, ⟨ts ++ rest, s⟩) := by
    rw [accept, other, if_neg Bool.false_ne_true]
  rw [bind_of_ok run]
  exact hf hts hrest

/-! ## Steps that take a token -/

theorem advance {f : Span → Parse β} (hkind : p.kind.isEnd = false)
    (hf : ∀ s, Takes (f s) ps follow result') :
    Takes (Parse.advance >>= f) (p :: ps) follow result' := by
  intro ts rest s hts hrest
  obtain ⟨t, us, rfl, ht, hus⟩ := giveAll_cons hts
  rw [List.cons_append, bind_of_ok (advance_cons (ht ▸ hkind))]
  exact hf t.span hus hrest

theorem accept_true {test : TokenKind → Bool} {f : Bool → Parse β} (hkind : p.kind.isEnd = false)
    (htest : test p.kind = true) (hf : Takes (f true) ps follow result') :
    Takes (accept test >>= f) (p :: ps) follow result' := by
  intro ts rest s hts hrest
  obtain ⟨t, us, rfl, ht, hus⟩ := giveAll_cons hts
  have further : t.kind.isEnd = false := ht ▸ hkind
  have moved : (Cursor.mk (t :: us ++ rest) s).advance = ⟨us ++ rest, t.span⟩ :=
    if_neg (further ▸ Bool.false_ne_true)
  have run : accept test ⟨t :: us ++ rest, s⟩ = .ok (true, ⟨us ++ rest, t.span⟩) := by
    rw [accept, kind_cons_append, ht, htest, if_pos rfl, moved]
  rw [bind_of_ok run]
  exact hf hus hrest

theorem require {test : TokenKind → Bool} {item : String} {f : Span → Parse β}
    (hkind : p.kind.isEnd = false) (htest : test p.kind = true)
    (hf : ∀ s, Takes (f s) ps follow result') :
    Takes (Parse.require item test >>= f) (p :: ps) follow result' := by
  intro ts rest s hts hrest
  obtain ⟨t, us, rfl, ht, hus⟩ := giveAll_cons hts
  have further : t.kind.isEnd = false := ht ▸ hkind
  have run : Parse.require item test ⟨t :: us ++ rest, s⟩ = .ok (t.span, ⟨us ++ rest, t.span⟩) := by
    have found : test t.kind = true := ht ▸ htest
    rw [Parse.require, bind_of_ok (kind_run _), kind_cons_append, if_pos found]
    exact advance_cons further
  rw [bind_of_ok run]
  exact hf t.span hus hrest

section

variable {f : Span → Parse β} {k : Keyword} {sym : Symbol} {name : Name} {spelling : String}

theorem requireKeyword (hp : p.kind = .keyword k) (hf : ∀ s, Takes (f s) ps follow result') :
    Takes (Parse.requireKeyword k >>= f) (p :: ps) follow result' :=
  require (hp ▸ rfl) (hp ▸ TokenKind.isKeyword_iff.mpr rfl) hf

theorem requireSymbol (hp : p.kind = .symbol sym) (hf : ∀ s, Takes (f s) ps follow result') :
    Takes (Parse.requireSymbol sym >>= f) (p :: ps) follow result' :=
  require (hp ▸ rfl) (hp ▸ TokenKind.isSymbol_iff.mpr rfl) hf

theorem acceptKeyword {f : Bool → Parse β} (hp : p.kind = .keyword k)
    (hf : Takes (f true) ps follow result') :
    Takes (Parse.acceptKeyword k >>= f) (p :: ps) follow result' :=
  accept_true (hp ▸ rfl) (hp ▸ TokenKind.isKeyword_iff.mpr rfl) hf

theorem acceptSymbol {f : Bool → Parse β} (hp : p.kind = .symbol sym)
    (hf : Takes (f true) ps follow result') :
    Takes (Parse.acceptSymbol sym >>= f) (p :: ps) follow result' :=
  accept_true (hp ▸ rfl) (hp ▸ TokenKind.isSymbol_iff.mpr rfl) hf

theorem acceptSymbol_of_ne {f : Bool → Parse β} (ahead : Ahead ps follow (· ≠ .symbol sym))
    (hf : Takes (f false) ps follow result') :
    Takes (Parse.acceptSymbol sym >>= f) ps follow result' :=
  accept_false (ahead.imp fun _ hkind => Bool.eq_false_iff.mpr (hkind ∘ TokenKind.isSymbol_iff.mp)) hf

theorem acceptKeyword_of_ne {f : Bool → Parse β} (ahead : Ahead ps follow (· ≠ .keyword k))
    (hf : Takes (f false) ps follow result') :
    Takes (Parse.acceptKeyword k >>= f) ps follow result' :=
  accept_false (ahead.imp fun _ hkind => Bool.eq_false_iff.mpr (hkind ∘ TokenKind.isKeyword_iff.mp))
    hf

theorem requireWord (hp : p.kind.isWord spelling = true)
    (hf : ∀ s, Takes (f s) ps follow result') :
    Takes (Parse.requireWord spelling >>= f) (p :: ps) follow result' :=
  require (TokenKind.isEnd_of_isWord hp) hp hf

theorem acceptWord {f : Bool → Parse β} (hp : p.kind.isWord spelling = true)
    (hf : Takes (f true) ps follow result') :
    Takes (Parse.acceptWord spelling >>= f) (p :: ps) follow result' :=
  accept_true (TokenKind.isEnd_of_isWord hp) hp hf

theorem identifier {f : Name → Parse β} (hp : p.kind = .ident name)
    (hf : Takes (f name) ps follow result') :
    Takes (Parse.identifier >>= f) (p :: ps) follow result' := by
  intro ts rest s hts hrest
  obtain ⟨t, us, rfl, ht, hus⟩ := giveAll_cons hts
  have run : Parse.identifier ⟨t :: us ++ rest, s⟩ = .ok (name, ⟨us ++ rest, t.span⟩) := by
    obtain ⟨kind, span, spaced, adjacent⟩ := t
    obtain rfl : kind = .ident name := ht.trans hp
    rfl
  rw [bind_of_ok run]
  exact hf hus hrest

end

end Takes

/-! ## Lists with commas -/

/-- Pieces that write items one behind the other, with commas in between, at least one. -/
inductive Separated (writes : α → List Piece → Prop) : List α → List Piece → Prop
  | one {a ps} (h : writes a ps) : Separated writes [a] ps
  | cons {a as ps comma qs} (h : writes a ps) (hcomma : comma.kind = .symbol .comma)
      (further : Separated writes as qs) : Separated writes (a :: as) (ps ++ comma :: qs)

variable {writes : β → List Piece → Prop} {reads : β → α → Prop} {item : Parse α} {bs : List β}

/-- Every item is read up to a comma or to what follows the list. -/
theorem Separated.takes (h : Separated writes bs ps)
    (hitem : ∀ b qs, writes b qs →
      Takes item qs (fun k => k = .symbol .comma ∨ follow k) (reads b))
    (hfollow : ∀ k, follow k → k ≠ .symbol .comma) :
    Takes (commaList item) ps follow (List.Forall₂ reads bs) := by
  have sep {n : Nat} (hn : ps.length ≤ n) :
      Takes (commaSeparated item n) ps follow (List.Forall₂ reads bs) := by
    induction h generalizing n with
    | @one b ps h =>
      intro ts rest s hts hrest
      obtain ⟨a, s', ha, hrun⟩ := hitem b ps h (s := s) hts (.inr hrest)
      refine ⟨[a], s', .cons ha .nil, commaSeparated_one hrun ?_⟩
      rw [kind_mk]
      exact hfollow _ hrest
    | @cons b bs ps comma qs h hcomma further ih =>
      intro ts rest s hts hrest
      rw [List.length_append, List.length_cons] at hn
      obtain ⟨n, rfl⟩ : ∃ n', n = n' + 1 := ⟨n - 1, by omega⟩
      obtain ⟨ts₁, ts₂, rfl, h₁, h₂⟩ := giveAll_append hts
      obtain ⟨t, us, rfl, ht, hus⟩ := giveAll_cons h₂
      obtain ⟨a, s', ha, hrun⟩ :=
        (hitem b ps h).run (t :: us ++ rest) s h₁ (.inl (ht.trans hcomma))
      have few : qs.length ≤ n := by omega
      obtain ⟨as, s'', has, hrun'⟩ := (ih few).run rest t.span hus hrest
      refine ⟨a :: as, s'', .cons ha has, ?_⟩
      rw [List.append_assoc]
      exact commaSeparated_cons hrun (ht.trans hcomma) hrun'
  exact Takes.remaining fun n hn => sep hn

end Parse

end PageScript
