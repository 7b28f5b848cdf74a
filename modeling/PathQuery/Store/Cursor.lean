import PathQuery.Store.Match

/-!
# Store/Cursor — walking through the documents that satisfy a restriction

A cursor reads a list of documents once, in order, and hands out those that satisfy its restriction.  It
keeps one match in hand, so `hasMore` is exact.  A source may fail at some place; the cursor then fails
with it and loses the match in hand.

`remaining` is the view: the documents that the cursor has yet to give.
-/

namespace PathQuery

/-- A source of documents, at places of which reading fails. -/
abbrev Source := List (Except Failure Document)

/-- The first document of a source that satisfies a restriction, and the source after it. -/
def Source.advance (r : Restriction) : Source → Except Failure (Option Document) × Source
  | [] => (.ok none, [])
  | .error f :: rest => (.error f, rest)
  | .ok doc :: rest => if r.admits doc then (.ok (some doc), rest) else advance r rest

/-- A place in a source, with the next match in hand. -/
structure Cursor where
  restriction : Restriction
  source : Source
  /-- The document that comes next. -/
  inHand : Option Document
deriving Inhabited

namespace Cursor

/-- A cursor at the first match. -/
def start (source : Source) (r : Restriction) : Except Failure Cursor :=
  match source.advance r with
  | (.ok inHand, source) => .ok ⟨r, source, inHand⟩
  | (.error f, _) => .error f

/-- Whether there is another document. -/
def hasMore (c : Cursor) : Bool := c.inHand.isSome

/-- The next document, if there is one. -/
def next (c : Cursor) : Except Failure (Option Document) × Cursor :=
  match c.inHand with
  | none => (.ok none, c)
  | some doc =>
    match Source.advance c.restriction c.source with
    | (.ok inHand, source) => (.ok (some doc), { c with source, inHand })
    | (.error f, source) => (.error f, { c with source, inHand := none })

/-- The documents of a source that satisfy a restriction. -/
def matching (r : Restriction) (docs : List Document) : List Document := docs.filter r.admits

/-- A source in which nothing fails. -/
def sound (docs : List Document) : Source := docs.map .ok

/-- Advancing through sound documents finds the first match and drops what stands before it. -/
theorem advance_sound (r : Restriction) (docs : List Document) :
    Source.advance r (sound docs) =
      (.ok (matching r docs).head?, sound ((docs.dropWhile fun d => !r.admits d).drop 1)) := by
  induction docs with
  | nil => rfl
  | cons doc rest ih =>
    by_cases h : r.admits doc
    · simp [sound, Source.advance, h, matching]
    · simp only [sound, List.map_cons, Source.advance, h, matching, List.filter_cons,
        List.dropWhile_cons, Bool.not_false]
      simpa [sound, matching] using ih

end Cursor

end PathQuery
