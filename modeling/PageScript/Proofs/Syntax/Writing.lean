import Mathlib.Data.List.Forall2
import PageScript.Proofs.Syntax.Steps

/-!
# Proofs/Syntax/Writing — how an expression may be written

`Expr.WrittenAt level e ps` says that the pieces `ps` are a way to write `e` as an operand of the
given level: as it is if its outer operator binds at least as strongly, else in parentheses, which
are allowed everywhere.  Two places are narrower.  The operand of a sign never starts with a number,
which would take the sign.  An argument is one pair of parentheses and what they hold exactly if it
is marked as passed by value.
-/

namespace PageScript

/-- A token as it is written: the blanks in front, its characters and what it is. -/
structure Piece where
  gap : List Char
  chars : List Char
  kind : TokenKind

/-- Neither a parenthesis nor the end of a line or a region. -/
def TokenKind.isPlain : TokenKind → Bool
  | .symbol .lparen | .symbol .rparen | .lineBreak | .closeCode | .endOfPage => false
  | _ => true

namespace TokenKind

variable {kind : TokenKind}

theorem isPlain_of_literal? {value : Literal} (h : kind.literal? = some value) :
    kind.isPlain = true := by
  cases kind <;> first | rfl | cases h

theorem isPlain_of_memberName? {name : Name} (h : kind.memberName? = some name) :
    kind.isPlain = true := by
  cases kind <;> first | rfl | cases h

theorem isPlain_of_binaryOp? {op : BinaryOp} (h : kind.binaryOp? = some op) :
    kind.isPlain = true := by
  cases kind with
  | symbol s => cases s <;> first | rfl | cases h
  | _ => first | rfl | cases h

end TokenKind

theorem BinaryOp.strength_lt_tightest (op : BinaryOp) : op.strength < tightest := by
  cases op <;> decide

theorem UnaryOp.strength_lt_tightest (op : UnaryOp) : op.strength < BinaryOp.tightest := by
  cases op <;> decide

namespace Expr

/-- The level of what a point or arguments can be attached to: chains and parentheses. -/
def chainStrength : Nat := 13

/-- How strongly the outer operator of an expression binds; chains hold together more than
everything else. -/
def strength : Expr → Nat
  | var .. | member .. | withMember .. | call .. => chainStrength
  | literal .. | create .. => BinaryOp.tightest
  | binary _ op _ _ => op.strength
  | unary _ op _ => op.strength

theorem strength_le (e : Expr) : e.strength ≤ chainStrength := by
  cases e with
  | binary _ op _ _ => exact Nat.le_succ_of_le (Nat.le_of_lt op.strength_lt_tightest)
  | unary _ op _ => exact Nat.le_succ_of_le (Nat.le_of_lt op.strength_lt_tightest)
  | literal | create => exact Nat.le_succ BinaryOp.tightest
  | _ => exact Nat.le_refl chainStrength

/-- The pieces of the members behind the first name of a `new` expression. -/
inductive PathWritten : List Name → List Piece → Prop
  | nil : PathWritten [] []
  | cons {name names dot p ps} (hdot : dot.kind = .symbol .dot)
      (hname : p.kind.memberName? = some name) (further : PathWritten names ps) :
      PathWritten (name :: names) (dot :: p :: ps)

mutual

/-- Pieces that write an expression without parentheses around all of it. -/
inductive Bare : Expr → List Piece → Prop
  | literal {s value p} (hvalue : p.kind.literal? = some value) : Bare (.literal s value) [p]
  | negative {s x sign p} (hsign : sign.kind = .symbol .minus) (hnumber : p.kind = .number x) :
      Bare (.literal s (.number (-x))) [sign, p]
  | var {s name p} (hname : p.kind = .ident name) : Bare (.var s name) [p]
  | member {s object name ps dot p} (hobject : WrittenAt chainStrength object ps)
      (hdot : dot.kind = .symbol .dot) (touching : dot.gap = [])
      (hname : p.kind.memberName? = some name) : Bare (.member s object name) (ps ++ [dot, p])
  | withMember {s name dot p} (hdot : dot.kind = .symbol .dot)
      (hname : p.kind.memberName? = some name) : Bare (.withMember s name) [dot, p]
  | apply {s callee ps l r} (hcallee : WrittenAt chainStrength callee ps)
      (hl : l.kind = .symbol .lparen) (hr : r.kind = .symbol .rparen) (touching : r.gap = []) :
      Bare (.call s callee []) (ps ++ [l, r])
  | call {s callee args ps l qs r} (hcallee : WrittenAt chainStrength callee ps)
      (hl : l.kind = .symbol .lparen) (hargs : ArgsWritten args qs)
      (hr : r.kind = .symbol .rparen) : Bare (.call s callee args) (ps ++ l :: (qs ++ [r]))
  | create {s first names p q ps} (hnew : p.kind = .keyword .newWord)
      (hfirst : q.kind = .ident first) (further : PathWritten names ps) :
      Bare (.create s (first :: names)) (p :: q :: ps)
  | binary {s op left right ls p rs} (hleft : WrittenAt op.strength left ls)
      (hop : p.kind.binaryOp? = some op) (hright : WrittenAt (op.strength + 1) right rs) :
      Bare (.binary s op left right) (ls ++ p :: rs)
  | not {s e p ps} (hnot : p.kind = .keyword .notWord)
      (operand : WrittenAt UnaryOp.not.strength e ps) : Bare (.unary s .not e) (p :: ps)
  | neg {s e p q ps} (hneg : p.kind = .symbol .minus)
      (operand : WrittenAt UnaryOp.neg.strength e (q :: ps)) (unsigned : ∀ x, q.kind ≠ .number x) :
      Bare (.unary s .neg e) (p :: q :: ps)

/-- Pieces that write an expression as an operand of a level. -/
inductive WrittenAt : Nat → Expr → List Piece → Prop
  | bare {level e ps} (hlevel : level ≤ e.strength) (h : Bare e ps) : WrittenAt level e ps
  | parens {level e l ps r} (hl : l.kind = .symbol .lparen) (h : WrittenAt 0 e ps)
      (hr : r.kind = .symbol .rparen) : WrittenAt level e (l :: (ps ++ [r]))

/-- Pieces that write an argument. -/
inductive ArgWritten : Arg → List Piece → Prop
  | byReference {e ps} (h : Bare e ps) : ArgWritten (.mk e false) ps
  | byValue {e l ps r} (hl : l.kind = .symbol .lparen) (h : WrittenAt 0 e ps)
      (hr : r.kind = .symbol .rparen) : ArgWritten (.mk e true) (l :: (ps ++ [r]))

/-- Pieces that write arguments, at least one. -/
inductive ArgsWritten : List Arg → List Piece → Prop
  | one {arg ps} (h : ArgWritten arg ps) : ArgsWritten [arg] ps
  | cons {arg args ps comma qs} (h : ArgWritten arg ps) (hcomma : comma.kind = .symbol .comma)
      (further : ArgsWritten args qs) : ArgsWritten (arg :: args) (ps ++ comma :: qs)

end

/-! ## The first piece -/

/-- What an operand of a level may start with: never a closing parenthesis or a plus, and `not` or
a minus only if the level is one of theirs. -/
structure Starts (level : Nat) (kind : TokenKind) : Prop where
  rparen : kind ≠ .symbol .rparen
  plus : kind ≠ .symbol .plus
  minus : BinaryOp.tightest < level → kind ≠ .symbol .minus
  not : UnaryOp.not.strength < level → kind ≠ .keyword .notWord

/-- The first piece of an operand of a level. -/
def StartsAt (level : Nat) (ps : List Piece) : Prop := ∃ p qs, ps = p :: qs ∧ Starts level p.kind

namespace StartsAt

variable {level level' : Nat} {ps : List Piece}

theorem mono (h : StartsAt level ps) (hle : level' ≤ level) : StartsAt level' ps := by
  obtain ⟨p, qs, rfl, starts⟩ := h
  exact ⟨p, qs, rfl, starts.rparen, starts.plus,
    fun h => starts.minus (Nat.lt_of_lt_of_le h hle),
    fun h => starts.not (Nat.lt_of_lt_of_le h hle)⟩

theorem append (h : StartsAt level ps) (qs : List Piece) : StartsAt level (ps ++ qs) := by
  obtain ⟨p, rest, rfl, starts⟩ := h
  exact ⟨p, rest ++ qs, rfl, starts⟩

theorem ne_nil (h : StartsAt level ps) : ps ≠ [] := by
  obtain ⟨p, rest, rfl, -⟩ := h
  exact List.cons_ne_nil p rest

/-- A first piece that is no sign, no `not` and no closing parenthesis suits every level. -/
theorem of_kind {p : Piece} {kind : TokenKind} (h : p.kind = kind)
    (hrparen : kind ≠ .symbol .rparen) (hplus : kind ≠ .symbol .plus)
    (hminus : kind ≠ .symbol .minus) (hnot : kind ≠ .keyword .notWord) (qs : List Piece) :
    StartsAt level (p :: qs) := by
  subst h
  exact ⟨p, qs, rfl, hrparen, hplus, fun _ => hminus, fun _ => hnot⟩

theorem of_literal {p : Piece} {value : Literal} (h : p.kind.literal? = some value)
    (qs : List Piece) : StartsAt level (p :: qs) := by
  have other {kind : TokenKind} (hnone : kind.literal? = none) : p.kind ≠ kind := by
    rintro rfl
    cases hnone.symm.trans h
  exact of_kind rfl (other rfl) (other rfl) (other rfl) (other rfl) qs

end StartsAt

mutual

theorem Bare.starts : ∀ {e : Expr} {ps : List Piece}, Bare e ps → StartsAt e.strength ps
  | _, _, .literal hvalue => .of_literal hvalue _
  | _, _, .negative hsign _ =>
    ⟨_, _, rfl, by simp [hsign], by simp [hsign], fun h => absurd h (Nat.lt_irrefl _),
      by simp [hsign]⟩
  | _, _, .var hname => .of_kind hname nofun nofun nofun nofun _
  | _, _, .withMember hdot _ => .of_kind hdot nofun nofun nofun nofun _
  | _, _, .create hnew _ _ => .of_kind hnew nofun nofun nofun nofun _
  | _, _, .not hnot _ =>
    ⟨_, _, rfl, by simp [hnot], by simp [hnot], by simp [hnot],
      fun h => absurd h (Nat.lt_irrefl _)⟩
  | _, _, .neg hneg _ _ => by
    have loose : ¬BinaryOp.tightest < UnaryOp.neg.strength := by decide
    exact ⟨_, _, rfl, by simp [hneg], by simp [hneg], fun h => absurd h loose, by simp [hneg]⟩
  | _, _, .member hobject _ _ _ => hobject.starts.append _
  | _, _, .apply hcallee _ _ _ => hcallee.starts.append _
  | _, _, .call hcallee _ _ _ => hcallee.starts.append _
  | _, _, .binary hleft _ _ => hleft.starts.append _

theorem WrittenAt.starts : ∀ {level : Nat} {e : Expr} {ps : List Piece}, WrittenAt level e ps →
    StartsAt level ps
  | _, _, _, .bare hlevel h => h.starts.mono hlevel
  | _, _, _, .parens hl _ _ => .of_kind hl nofun nofun nofun nofun _

end

theorem ArgWritten.starts : ∀ {arg : Arg} {ps : List Piece}, ArgWritten arg ps → StartsAt 0 ps
  | _, _, .byReference h => h.starts.mono (Nat.zero_le _)
  | _, _, .byValue hl _ _ => .of_kind hl nofun nofun nofun nofun _

theorem ArgsWritten.starts : ∀ {args : List Arg} {ps : List Piece}, ArgsWritten args ps →
    StartsAt 0 ps
  | _, _, .one h => h.starts
  | _, _, .cons h _ _ => h.starts.append _

/-! ## Parentheses in pairs -/

/-- Tokens of these kinds open and close their parentheses in pairs, all on one line. -/
def Paired (kinds : List TokenKind) : Prop :=
  ∀ (ts : List Token), ts.map Token.kind = kinds → ∀ (depth : Nat) (rest : List Token),
    Cursor.afterClosing? (depth + 1) (ts ++ rest) = Cursor.afterClosing? (depth + 1) rest

namespace Paired

theorem nil : Paired [] := by
  intro ts hts depth rest
  rw [List.map_eq_nil_iff] at hts
  rw [hts, List.nil_append]

theorem append {as bs : List TokenKind} (ha : Paired as) (hb : Paired bs) : Paired (as ++ bs) := by
  intro ts hts depth rest
  obtain ⟨ts₁, ts₂, rfl, h₁, h₂⟩ := List.map_eq_append_iff.mp hts
  rw [List.append_assoc, ha ts₁ h₁, hb ts₂ h₂]

theorem cons {kind : TokenKind} {ks : List TokenKind} (hkind : kind.isPlain = true)
    (hks : Paired ks) : Paired (kind :: ks) := by
  intro ts hts depth rest
  obtain ⟨⟨kind, _, _, _⟩, us, rfl, rfl, hus⟩ := List.map_eq_cons_iff.mp hts
  refine Eq.trans ?_ (hks us hus depth rest)
  cases kind with
  | symbol s => cases s <;> first | rfl | cases hkind
  | _ => first | rfl | cases hkind

theorem parens {ks : List TokenKind} (hks : Paired ks) :
    Paired (.symbol .lparen :: (ks ++ [.symbol .rparen])) := by
  intro ts hts depth rest
  obtain ⟨⟨_, _, _, _⟩, us, rfl, rfl, hus⟩ := List.map_eq_cons_iff.mp hts
  obtain ⟨us₁, us₂, rfl, h₁, h₂⟩ := List.map_eq_append_iff.mp hus
  obtain ⟨⟨_, _, _, _⟩, us₃, rfl, rfl, h₃⟩ := List.map_eq_cons_iff.mp h₂
  rw [List.map_eq_nil_iff] at h₃
  subst h₃
  change Cursor.afterClosing? (depth + 2) (us₁ ++ _ ++ rest) = _
  rw [List.append_assoc, hks us₁ h₁]
  rfl

end Paired

/-- The kinds of pieces. -/
def kinds (ps : List Piece) : List TokenKind := ps.map Piece.kind

section

variable {p : Piece} {ps qs : List Piece}

@[simp] theorem kinds_cons : kinds (p :: ps) = p.kind :: kinds ps := rfl

@[simp] theorem kinds_append : kinds (ps ++ qs) = kinds ps ++ kinds qs := List.map_append

end

theorem PathWritten.paired : ∀ {names : List Name} {ps : List Piece}, PathWritten names ps →
    Paired (kinds ps)
  | _, _, .nil => .nil
  | _, _, .cons hdot hname further =>
    .cons (hdot ▸ rfl) (.cons (TokenKind.isPlain_of_memberName? hname) further.paired)

mutual

theorem Bare.paired : ∀ {e : Expr} {ps : List Piece}, Bare e ps → Paired (kinds ps)
  | _, _, .literal hvalue => .cons (TokenKind.isPlain_of_literal? hvalue) .nil
  | _, _, .negative hsign hnumber => .cons (hsign ▸ rfl) (.cons (hnumber ▸ rfl) .nil)
  | _, _, .var hname => .cons (hname ▸ rfl) .nil
  | _, _, .withMember hdot hname =>
    .cons (hdot ▸ rfl) (.cons (TokenKind.isPlain_of_memberName? hname) .nil)
  | _, _, .create hnew hfirst further =>
    .cons (hnew ▸ rfl) (.cons (hfirst ▸ rfl) further.paired)
  | _, _, .not hnot operand => .cons (hnot ▸ rfl) operand.paired
  | _, _, .neg hneg operand _ => .cons (hneg ▸ rfl) operand.paired
  | _, _, .member hobject hdot _ hname => by
    rw [kinds_append]
    exact hobject.paired.append
      (.cons (hdot ▸ rfl) (.cons (TokenKind.isPlain_of_memberName? hname) .nil))
  | _, _, .apply hcallee hl hr _ => by
    rw [kinds_append, kinds_cons, kinds_cons, hl, hr]
    exact hcallee.paired.append Paired.nil.parens
  | _, _, .call hcallee hl hargs hr => by
    rw [kinds_append, kinds_cons, kinds_append, kinds_cons, hl, hr]
    exact hcallee.paired.append hargs.paired.parens
  | _, _, .binary hleft hop hright => by
    rw [kinds_append]
    exact hleft.paired.append (.cons (TokenKind.isPlain_of_binaryOp? hop) hright.paired)

theorem WrittenAt.paired : ∀ {level : Nat} {e : Expr} {ps : List Piece}, WrittenAt level e ps →
    Paired (kinds ps)
  | _, _, _, .bare _ h => h.paired
  | _, _, _, .parens hl h hr => by
    rw [kinds_cons, kinds_append, kinds_cons, hl, hr]
    exact h.paired.parens

theorem ArgWritten.paired : ∀ {arg : Arg} {ps : List Piece}, ArgWritten arg ps → Paired (kinds ps)
  | _, _, .byReference h => h.paired
  | _, _, .byValue hl h hr => by
    rw [kinds_cons, kinds_append, kinds_cons, hl, hr]
    exact h.paired.parens

theorem ArgsWritten.paired : ∀ {args : List Arg} {ps : List Piece}, ArgsWritten args ps →
    Paired (kinds ps)
  | _, _, .one h => h.paired
  | _, _, .cons h hcomma further => by
    rw [kinds_append]
    exact h.paired.append (.cons (hcomma ▸ rfl) further.paired)

end

/-! ## The first pair of parentheses -/

/-- The pieces start with a pair of parentheses, behind which `tail` is left. -/
def Leads (ps tail : List Piece) : Prop :=
  ∃ l inner r, ps = l :: (inner ++ r :: tail) ∧ l.kind = .symbol .lparen ∧
    r.kind = .symbol .rparen ∧ Paired (kinds inner)

theorem Leads.append {ps tail : List Piece} (h : Leads ps tail) (qs : List Piece) :
    Leads (ps ++ qs) (tail ++ qs) := by
  obtain ⟨l, inner, r, rfl, hl, hr, paired⟩ := h
  exact ⟨l, inner, r, by simp, hl, hr, paired⟩

/-- The pieces start with an opening parenthesis. -/
def Opens (ps : List Piece) : Prop := ∃ l qs, ps = l :: qs ∧ l.kind = .symbol .lparen

/-- What starts an expression starts what it is a part of. -/
theorem WrittenAt.opens {level : Nat} {e : Expr} {ps qs : List Piece} (h : WrittenAt level e ps)
    (hopens : Opens (ps ++ qs)) : Opens ps := by
  obtain ⟨p, rest, rfl, -⟩ := h.starts
  obtain ⟨l, _, heq, hl⟩ := hopens
  cases heq
  exact ⟨p, rest, rfl, hl⟩

mutual

/-- Behind a pair of parentheses that an expression starts with there is more of it, unless the
parentheses are around all of it. -/
theorem Bare.leads : ∀ {e : Expr} {ps : List Piece}, Bare e ps → Opens ps →
    ∃ tail, Leads ps tail ∧ tail ≠ []
  | _, _, .literal hvalue, ⟨_, _, rfl, hl⟩ => by simp [hl, TokenKind.literal?] at hvalue
  | _, _, .negative hsign _, ⟨_, _, rfl, hl⟩ => by simp [hl] at hsign
  | _, _, .var hname, ⟨_, _, rfl, hl⟩ => by simp [hl] at hname
  | _, _, .withMember hdot _, ⟨_, _, rfl, hl⟩ => by simp [hl] at hdot
  | _, _, .create hnew _ _, ⟨_, _, rfl, hl⟩ => by simp [hl] at hnew
  | _, _, .not hnot _, ⟨_, _, rfl, hl⟩ => by simp [hl] at hnot
  | _, _, .neg hneg _ _, ⟨_, _, rfl, hl⟩ => by simp [hl] at hneg
  | _, _, .member hobject _ _ _, hopens => by
    obtain ⟨tail, leads⟩ := hobject.leads (hobject.opens hopens)
    exact ⟨_, leads.append _, by simp⟩
  | _, _, .apply hcallee _ _ _, hopens => by
    obtain ⟨tail, leads⟩ := hcallee.leads (hcallee.opens hopens)
    exact ⟨_, leads.append _, by simp⟩
  | _, _, .call hcallee _ _ _, hopens => by
    obtain ⟨tail, leads⟩ := hcallee.leads (hcallee.opens hopens)
    exact ⟨_, leads.append _, by simp⟩
  | _, _, .binary hleft _ _, hopens => by
    obtain ⟨tail, leads⟩ := hleft.leads (hleft.opens hopens)
    exact ⟨_, leads.append _, by simp⟩

theorem WrittenAt.leads : ∀ {level : Nat} {e : Expr} {ps : List Piece}, WrittenAt level e ps →
    Opens ps → ∃ tail, Leads ps tail
  | _, _, _, .bare _ h, hopens => by
    obtain ⟨tail, leads, -⟩ := h.leads hopens
    exact ⟨tail, leads⟩
  | _, _, _, .parens hl h hr, _ => ⟨[], _, _, _, rfl, hl, hr, h.paired⟩

end

end Expr

end PageScript
