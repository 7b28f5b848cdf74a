import PathQuery.Text.Offset

/-!
# Filter/Span — places in a filter text

A span is a range of byte offsets.
-/

namespace PathQuery.Filter

/-- The bytes from `start` up to `stop`, which is not included. -/
structure Span where
  start : Nat
  stop : Nat
deriving DecidableEq, Repr, Inhabited

namespace Span

/-- The empty span at an offset. -/
def empty (offset : Nat) : Span := ⟨offset, offset⟩

/-- The least span around two. -/
def merge (a b : Span) : Span := ⟨min a.start b.start, max a.stop b.stop⟩

/-- The number of bytes. -/
def length (s : Span) : Nat := s.stop - s.start

/-- Whether the span has no bytes. -/
def isEmpty (s : Span) : Bool := s.start == s.stop

/-- The column of the start in a text, from one. -/
def column (s : Span) (source : List Char) : Nat := (Text.lineAndColumn source s.start).2

end Span

end PathQuery.Filter
