import PathQuery.Result.Collection
import PathQuery.Store.Cursor

/-!
# Store/Batch — pulling documents in batches

A batch cursor moves at most a fixed number of documents at a time from a cursor into a collection.  Each
document becomes a member of its own, told apart from the others by its number in the cursor.
-/

namespace PathQuery

/-- A cursor that is read in batches. -/
structure BatchCursor where
  cursor : Cursor
  batchSize : Nat
  /-- The number of documents read so far, the identity of the next member. -/
  pulled : Nat
deriving Inhabited

namespace BatchCursor

/-- Reads a cursor in batches of some size, at least one. -/
def ofCursor (cursor : Cursor) (batchSize : Nat) : BatchCursor := ⟨cursor, max batchSize 1, 0⟩

/-- Whether there is another document. -/
def hasMore (b : BatchCursor) : Bool := b.cursor.hasMore

/-- Moves up to `count` documents into a collection; gives how many were moved, on top of `moved`. -/
def pull : (count moved : Nat) → BatchCursor → Collection →
    Except Failure Nat × BatchCursor × Collection
  | 0, moved, b, c => (.ok moved, b, c)
  | count + 1, moved, b, c =>
    match b.cursor.next with
    | (.error f, cursor) => (.error f, { b with cursor }, c)
    | (.ok none, cursor) => (.ok moved, { b with cursor }, c)
    | (.ok (some doc), cursor) =>
      let b' := { b with cursor, pulled := b.pulled + 1 }
      match c.add ⟨b.pulled, Entity.ofDocument doc⟩ with
      | .error f => (.error f, b', c)
      | .ok (_, c) => pull count (moved + 1) b' c

/-- Moves the next batch into a collection. -/
def nextBatch (b : BatchCursor) (c : Collection) : Except Failure Nat × BatchCursor × Collection :=
  pull b.batchSize 0 b c

end BatchCursor

end PathQuery
