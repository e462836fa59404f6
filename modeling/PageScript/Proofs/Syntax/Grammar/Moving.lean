import PageScript.Proofs.Syntax.Grammar.Basic
import PageScript.Token.Sequence

/-!
# Proofs/Syntax/Grammar/Moving — the same tokens elsewhere

Where tokens stand makes no difference to what they are made of.  Tokens are akin if they are of the same
kinds and touch the ones before them alike (`Token.Akin`); the first token of a list may have been moved
behind something else (`Token.Moved`).  What counts is of what kind they are, and where parentheses and
points touch what is before them; of the first token of an expression not even that
(`Grammar.Expression.moved`).
-/

namespace PageScript

namespace Token

/-- The same kinds of token, and the same tokens touch the ones before them. -/
inductive Akin : List Token → List Token → Prop
  | nil : Akin [] []
  | cons {t u ts us} (h : t.kind = u.kind ∧ t.adjacent = u.adjacent) (further : Akin ts us) :
      Akin (t :: ts) (u :: us)

/-- The same tokens elsewhere: the first one may touch something else. -/
inductive Moved : List Token → List Token → Prop
  | nil : Moved [] []
  | cons {t u ts us} (kind : t.kind = u.kind) (h : Akin ts us) : Moved (t :: ts) (u :: us)

variable {ts us : List Token}

theorem Akin.refl : ∀ ts : List Token, Akin ts ts
  | [] => .nil
  | _ :: ts => .cons ⟨rfl, rfl⟩ (refl ts)

theorem Akin.moved (h : Akin ts us) : Moved ts us := by
  cases h with
  | nil => exact .nil
  | cons h further => exact .cons h.1 further

theorem Moved.refl (ts : List Token) : Moved ts ts := (Akin.refl ts).moved

theorem Akin.length_eq (h : Akin ts us) : ts.length = us.length := by
  induction h with
  | nil => rfl
  | cons _ _ ih => exact congrArg Nat.succ ih

theorem Moved.map_kind_eq (h : Moved ts us) : ts.map Token.kind = us.map Token.kind := by
  cases h with
  | nil => rfl
  | @cons t u ts us kind h =>
    rw [List.map_cons, List.map_cons, kind]
    congr 1
    induction h with
    | nil => rfl
    | cons h _ ih => rw [List.map_cons, List.map_cons, h.1, ih]

theorem Akin.nextAdjacent_eq (h : Akin ts us) : nextAdjacent ts = nextAdjacent us := by
  cases h with
  | nil => rfl
  | cons h => exact h.2

theorem Moved.next_eq (h : Moved ts us) : next ts = next us := by
  cases h with
  | nil => rfl
  | cons kind => exact kind

end Token

namespace Grammar

open Token (Akin Moved next nextAdjacent)

variable {ts us rest rest' : List Token}

/-- A parenthesis is closed behind as many tokens of the same kinds. -/
theorem length_afterClosing? : ∀ {ts us : List Token} (depth : Nat),
    ts.map Token.kind = us.map Token.kind →
      (Cursor.afterClosing? depth ts).map List.length = (Cursor.afterClosing? depth us).map List.length
  | [], [], _, _ => rfl
  | t :: ts, u :: us, depth, h => by
    obtain ⟨kind, further⟩ := List.cons.inj h
    unfold Cursor.afterClosing?
    rw [← kind]
    split
    · exact length_afterClosing? _ further
    · split
      · rfl
      · have length := congrArg List.length further
        rw [List.length_map, List.length_map] at length
        exact congrArg some length
      · exact length_afterClosing? _ further
    · rfl
    · rfl
    · rfl
    · exact length_afterClosing? _ further

theorem isParenthesized_moved (h : Moved ts us) (h' : Akin rest rest') :
    isParenthesized ts rest = isParenthesized us rest' := by
  have closed := length_afterClosing? 0 h.map_kind_eq
  rw [isParenthesized, isParenthesized, Cursor.isParenthesized, Cursor.isParenthesized,
    Cursor.kind_mk_eq, Cursor.kind_mk_eq, h.next_eq, h'.length_eq]
  generalize Cursor.afterClosing? 0 ts = o, Cursor.afterClosing? 0 us = o' at closed
  cases o with
  | none =>
    cases o' with
    | none => rfl
    | some => cases closed
  | some vs =>
    cases o' with
    | none => cases closed
    | some vs' =>
      have length : vs.length = vs'.length := Option.some.inj closed
      exact congrArg (fun n => TokenKind.isSymbol .lparen (next us) && n == rest'.length) length

theorem Path.akin : ∀ {ts : List Token} {names : List Name} {rest us : List Token}, Path ts names rest →
    Akin ts us → ∃ rest', Akin rest rest' ∧ Path us names rest'
  | _, _, _, us, .stop other, akin => ⟨us, akin, .stop (akin.moved.next_eq ▸ other)⟩
  | _, _, _, _, .cons ht hu further, .cons ht' (.cons hu' akin) => by
    obtain ⟨rest', akin', further'⟩ := further.akin akin
    exact ⟨rest', akin', .cons (ht'.1 ▸ ht) (hu'.1 ▸ hu) further'⟩

theorem Head.moved {e : Expr} (h : Head ts e rest) (moved : Moved ts us) :
    ∃ rest', Akin rest rest' ∧ Head us e rest' := by
  cases h with
  | var ht =>
    obtain _ | ⟨kind, akin⟩ := moved
    exact ⟨_, akin, .var (kind ▸ ht)⟩
  | withMember ht hu =>
    obtain _ | ⟨kind, _ | ⟨hu', akin⟩⟩ := moved
    exact ⟨_, akin, .withMember (kind ▸ ht) (hu'.1 ▸ hu)⟩

mutual

theorem Expression.moved : ∀ {level : Nat} {ts : List Token} {e : Expr} {rest us : List Token},
    Expression level ts e rest → Moved ts us → ∃ rest', Akin rest rest' ∧ Expression level us e rest'
  | _, _, _, _, _, .intro h further, moved => by
    obtain ⟨vs, akin, h'⟩ := h.moved moved
    obtain ⟨rest', akin', further'⟩ := further.akin akin
    exact ⟨rest', akin', .intro h' further'⟩

theorem Operand.moved : ∀ {level : Nat} {ts : List Token} {e : Expr} {rest us : List Token},
    Operand level ts e rest → Moved ts us → ∃ rest', Akin rest rest' ∧ Operand level us e rest'
  | _, _, _, _, _, .not ht hlevel h, .cons kind akin => by
    obtain ⟨rest', akin', h'⟩ := h.moved akin.moved
    exact ⟨rest', akin', .not (kind ▸ ht) hlevel h'⟩
  | _, _, _, _, _, .neg ht unsigned h, .cons kind akin => by
    obtain ⟨rest', akin', h'⟩ := h.moved akin.moved
    exact ⟨rest', akin', .neg (kind ▸ ht) (akin.moved.next_eq ▸ unsigned) h'⟩
  | _, _, _, _, _, .plus ht unsigned h, .cons kind akin => by
    obtain ⟨rest', akin', h'⟩ := h.moved akin.moved
    exact ⟨rest', akin', .plus (kind ▸ ht) (akin.moved.next_eq ▸ unsigned) h'⟩
  | _, _, _, _, _, .literal ht, .cons kind akin => ⟨_, akin, .literal (kind ▸ ht)⟩
  | _, _, _, _, _, .negative ht hu, .cons kind (.cons hu' akin) =>
    ⟨_, akin, .negative (kind ▸ ht) (hu'.1 ▸ hu)⟩
  | _, _, _, _, _, .positive ht hu, .cons kind (.cons hu' akin) =>
    ⟨_, akin, .positive (kind ▸ ht) (hu'.1 ▸ hu)⟩
  | _, _, _, _, _, .create ht hu h, .cons kind (.cons hu' akin) => by
    obtain ⟨rest', akin', h'⟩ := h.akin akin
    exact ⟨rest', akin', .create (kind ▸ ht) (hu'.1 ▸ hu) h'⟩
  | _, _, _, _, _, .parens ht h hr links, .cons kind akin => by
    obtain ⟨_, _ | ⟨hr', akin⟩, h'⟩ := h.moved akin.moved
    obtain ⟨rest', akin', links'⟩ := links.akin akin
    exact ⟨rest', akin', .parens (kind ▸ ht) h' (hr'.1 ▸ hr) links'⟩
  | _, _, _, _, _, .chain h links, moved => by
    obtain ⟨vs, akin, h'⟩ := h.moved moved
    obtain ⟨rest', akin', links'⟩ := links.akin akin
    exact ⟨rest', akin', .chain h' links'⟩

theorem Links.akin : ∀ {chain : Expr} {ts : List Token} {e : Expr} {rest us : List Token},
    Links chain ts e rest → Akin ts us → ∃ rest', Akin rest rest' ∧ Links chain us e rest'
  | _, _, _, _, us, .stop paren dot, akin =>
    ⟨us, akin, .stop (akin.moved.next_eq ▸ paren)
      (akin.moved.next_eq ▸ akin.nextAdjacent_eq ▸ dot)⟩
  | _, _, _, _, _, .link h further, akin => by
    obtain ⟨vs, akin, h'⟩ := h.akin akin
    obtain ⟨rest', akin', further'⟩ := further.akin akin
    exact ⟨rest', akin', .link h' further'⟩

theorem Link.akin : ∀ {chain : Expr} {ts : List Token} {e : Expr} {rest us : List Token},
    Link chain ts e rest → Akin ts us → ∃ rest', Akin rest rest' ∧ Link chain us e rest'
  | _, _, _, _, _, .member ht touching hu, .cons ht' (.cons hu' akin) =>
    ⟨_, akin, .member (ht'.1 ▸ ht) (ht'.2 ▸ touching) (hu'.1 ▸ hu)⟩
  | _, _, _, _, _, .apply ht hu touching, .cons ht' (.cons hu' akin) =>
    ⟨_, akin, .apply (ht'.1 ▸ ht) (hu'.1 ▸ hu) (hu'.2 ▸ touching)⟩
  | _, _, _, _, _, .call ht hargs hr, .cons ht' akin => by
    obtain ⟨_, _ | ⟨hr', akin⟩, hargs'⟩ := hargs.moved akin.moved
    exact ⟨_, akin, .call (ht'.1 ▸ ht) hargs' (hr'.1 ▸ hr)⟩

theorem Arguments.moved : ∀ {ts : List Token} {args : List Arg} {rest us : List Token},
    Arguments ts args rest → Moved ts us → ∃ rest', Akin rest rest' ∧ Arguments us args rest'
  | _, _, _, _, .one h last, moved => by
    obtain ⟨rest', akin, h'⟩ := h.moved moved
    rw [isParenthesized_moved moved akin]
    exact ⟨rest', akin, .one h' (akin.moved.next_eq ▸ last)⟩
  | _, _, _, _, .cons h ht further, moved => by
    obtain ⟨_, whole, h'⟩ := h.moved moved
    rw [isParenthesized_moved moved whole]
    obtain _ | ⟨ht', akin⟩ := whole
    obtain ⟨rest', akin', further'⟩ := further.moved akin.moved
    exact ⟨rest', akin', .cons h' (ht'.1 ▸ ht) further'⟩

theorem Further.akin : ∀ {level : Nat} {left : Expr} {ts : List Token} {e : Expr}
    {rest us : List Token}, Further level left ts e rest → Akin ts us →
      ∃ rest', Akin rest rest' ∧ Further level left us e rest'
  | _, _, _, _, _, us, .stop loose, akin => ⟨us, akin, .stop (akin.moved.next_eq ▸ loose)⟩
  | _, _, _, _, _, _, .cons ht hlevel h further, .cons ht' akin => by
    obtain ⟨vs, akin', h'⟩ := h.moved akin.moved
    obtain ⟨rest', akin', further'⟩ := further.akin akin'
    exact ⟨rest', akin', .cons (ht'.1 ▸ ht) hlevel (akin.moved.next_eq ▸ h') further'⟩

end

theorem Linked.akin {chain e : Expr} (h : Linked chain ts e rest) :
    ∀ {us : List Token}, Akin ts us → ∃ rest', Akin rest rest' ∧ Linked chain us e rest' := by
  induction h with
  | nil => exact fun {us} akin => ⟨us, akin, .nil⟩
  | cons h _ ih =>
    intro us akin
    obtain ⟨vs, akin, h'⟩ := h.akin akin
    obtain ⟨rest', akin', further'⟩ := ih akin
    exact ⟨rest', akin', .cons h' further'⟩

end Grammar

end PageScript
