import PathQuery.Proofs.Store.Cursor
import PathQuery.Store.Batch

/-!
# Proofs/Store/Slices — batches deal out the matching documents

    matches   d₀ … dₖ₋₁ │ dₖ … d₂ₖ₋₁ │ d₂ₖ …          batches of size k

A batch cursor stands behind the slices that it has dealt out (`At`).  Each batch, put into a collection that
was purged, moves it behind the next slice (`At.next`), whichever documents lie between the matches.  So after
any number of batches the next one is told by its number alone (`nextBatch_after`).
-/

namespace PathQuery.BatchCursor

/-! ## Slices -/

/-- The slice of some documents that a batch of some number is made of, counted from zero. -/
def slice (docs : List Document) (size number : Nat) : List Document :=
  (docs.drop (number * size)).take size

/-- The members that some documents become, numbered from a number on. -/
def membersFrom : (first : Nat) → List Document → List Member
  | _, [] => []
  | first, doc :: docs => ⟨first, Entity.ofDocument doc⟩ :: membersFrom (first + 1) docs

/-- A cursor after a batch for each of some collections, which were purged before. -/
def after (b : BatchCursor) (cs : List Collection) : BatchCursor :=
  cs.foldl (fun b c => (b.nextBatch c.purge).2.1) b

/-- A collection that was purged takes the slice of a batch, and no adding fails. -/
def Takes (docs : List Document) (size number : Nat) (c : Collection) : Prop :=
  (c.purge.addAll (membersFrom (number * size) (slice docs size number))).1 = .ok ()

/-! ## One batch -/

variable {docs : List Document} {count moved size number : Nat} {b : BatchCursor} {c : Collection}
  {cs : List Collection}

/-- What pulling the next documents comes to, where no adding fails. -/
structure Pulls (docs : List Document) (count moved : Nat) (b : BatchCursor) (c : Collection)
    (r : Except Failure Nat × BatchCursor × Collection) : Prop where
  result : r.1 = .ok (moved + (docs.take count).length)
  gives : r.2.1.cursor.Gives (docs.drop count)
  batchSize_eq : r.2.1.batchSize = b.batchSize
  pulled_eq : r.2.1.pulled = b.pulled + (docs.take count).length
  added : r.2.2 = (c.addAll (membersFrom b.pulled (docs.take count))).2

/-- **A pull** takes the next documents and no other. -/
theorem pulls_of_addAll (hg : b.cursor.Gives docs)
    (h : (c.addAll (membersFrom b.pulled (docs.take count))).1 = .ok ()) :
    Pulls docs count moved b c (pull count moved b c) := by
  induction count generalizing moved b c docs with
  | zero => exact ⟨rfl, hg, rfl, rfl, rfl⟩
  | succ count ih =>
    obtain ⟨cursor, hnext, -, hg'⟩ := hg.exists_next
    rw [pull, hnext]
    cases docs with
    | nil => exact ⟨rfl, hg', rfl, rfl, rfl⟩
    | cons doc rest =>
      rw [List.take_succ_cons, membersFrom, Collection.addAll] at h
      dsimp only [List.head?_cons]
      cases hadd : c.add ⟨b.pulled, Entity.ofDocument doc⟩ with
      | error f => rw [hadd] at h; obtain ⟨⟩ := h
      | ok added =>
        rw [hadd] at h
        have hp : Pulls rest count (moved + 1) { b with cursor, pulled := b.pulled + 1 } added.2 _ := ih hg' h
        obtain ⟨hr, hgives, hsize, hpulled, hadded⟩ := hp
        refine ⟨?_, hgives, hsize, ?_, ?_⟩
        · rw [hr, List.take_succ_cons, List.length_cons, Nat.add_right_comm, Nat.add_assoc]
        · rw [hpulled, List.take_succ_cons, List.length_cons, Nat.add_right_comm, Nat.add_assoc]
        · rw [hadded, List.take_succ_cons, membersFrom, Collection.addAll, hadd]

/-! ## One batch after the other -/

/-- A cursor that stands behind the first slices. -/
structure At (docs : List Document) (size number : Nat) (b : BatchCursor) : Prop where
  gives : b.cursor.Gives (docs.drop (number * size))
  batchSize_eq : b.batchSize = size
  pulled_eq : b.pulled = min (number * size) docs.length

theorem At.start (r : Restriction) (docs : List Document) (size : Nat) : ∃ cursor,
    Cursor.start (Cursor.sound docs) r = .ok cursor ∧
      At (Cursor.matching r docs) (max size 1) 0 (ofCursor cursor size) := by
  obtain ⟨cursor, hs, -, hg⟩ := Cursor.exists_start docs r
  refine ⟨cursor, hs, ?_, rfl, ?_⟩
  · rwa [Nat.zero_mul, List.drop_zero]
  · rw [Nat.zero_mul, Nat.zero_min]
    rfl

/-- There is more exactly if the next slice has a document. -/
theorem At.hasMore_iff (h : At docs size number b) (hsize : 0 < size) :
    b.hasMore = true ↔ slice docs size number ≠ [] := by
  rw [hasMore, h.gives.hasMore_iff, slice, ne_eq, ne_eq, List.take_eq_nil_iff]
  exact not_congr ⟨.inr, fun h => h.resolve_left (Nat.ne_of_gt hsize)⟩

/-- The documents of the next slice have the numbers from its first place on. -/
theorem At.membersFrom_eq (h : At docs size number b) :
    membersFrom b.pulled (slice docs size number) =
      membersFrom (number * size) (slice docs size number) := by
  rcases Nat.lt_or_ge (number * size) docs.length with hlt | hge
  · rw [h.pulled_eq, Nat.min_eq_left (Nat.le_of_lt hlt)]
  · rw [slice, List.drop_eq_nil_of_le hge, List.take_nil]
    rfl

/-- **The next batch** is the next slice, and moves the cursor behind it. -/
theorem At.next (h : At docs size number b) (ht : Takes docs size number c) :
    At docs size (number + 1) (b.nextBatch c.purge).2.1 ∧
      Pulls (docs.drop (number * size)) size 0 b c.purge (b.nextBatch c.purge) := by
  have hp : Pulls (docs.drop (number * size)) size 0 b c.purge (b.nextBatch c.purge) := by
    have hadd : (c.purge.addAll (membersFrom b.pulled ((docs.drop (number * size)).take size))).1 = .ok () :=
      (congrArg (fun ms => (c.purge.addAll ms).1) h.membersFrom_eq).trans ht
    rw [nextBatch, h.batchSize_eq]
    exact pulls_of_addAll h.gives hadd
  refine ⟨⟨?_, hp.batchSize_eq.trans h.batchSize_eq, ?_⟩, hp⟩
  · rw [Nat.succ_mul, ← List.drop_drop]
    exact hp.gives
  · rw [hp.pulled_eq, h.pulled_eq, List.length_take, List.length_drop, Nat.succ_mul]
    omega

/-- **Batch after batch**, the cursor stands behind as many slices. -/
theorem At.after (h : At docs size number b)
    (ht : ∀ i (c : Collection), cs[i]? = some c → Takes docs size (number + i) c) :
    At docs size (number + cs.length) (b.after cs) := by
  induction cs generalizing number b with
  | nil => exact h
  | cons c cs ih =>
    have hnext := (h.next (ht 0 c rfl)).1
    rw [List.length_cons, Nat.add_comm cs.length, ← Nat.add_assoc]
    refine ih hnext fun i d hd => ?_
    rw [Nat.add_assoc, Nat.add_comm 1]
    exact ht (i + 1) d hd

/-! ## All batches -/

/-- **Batches deal out the matching documents.**  After a batch for each of some collections, there is more
exactly if the next slice of the matches has a document; and the next batch tells the length of this slice and
leaves a collection that was purged with the slice added, and nothing else. -/
theorem nextBatch_after (r : Restriction) (docs : List Document) (size : Nat) (cs : List Collection)
    (c : Collection) (ht : ∀ i (d : Collection), (cs ++ [c])[i]? = some d →
      Takes (Cursor.matching r docs) (max size 1) i d) :
    ∃ cursor, Cursor.start (Cursor.sound docs) r = .ok cursor ∧
      let b := (ofCursor cursor size).after cs
      let batch := slice (Cursor.matching r docs) (max size 1) cs.length
      (b.hasMore = true ↔ batch ≠ []) ∧
      (b.nextBatch c.purge).1 = .ok batch.length ∧
      (b.nextBatch c.purge).2.2 =
        (c.purge.addAll (membersFrom (cs.length * max size 1) batch)).2 := by
  obtain ⟨cursor, hs, hstart⟩ := At.start r docs size
  refine ⟨cursor, hs, ?_⟩
  have hbefore : ∀ i (d : Collection), cs[i]? = some d →
      Takes (Cursor.matching r docs) (max size 1) (0 + i) d := fun i d hd => by
    rw [Nat.zero_add]
    exact ht i d ((List.getElem?_append_left (List.getElem?_eq_some_iff.mp hd).1).trans hd)
  have hat := hstart.after hbefore
  rw [Nat.zero_add] at hat
  have hp := (hat.next (ht cs.length c List.getElem?_concat_length)).2
  refine ⟨hat.hasMore_iff (Nat.lt_of_lt_of_le Nat.zero_lt_one (Nat.le_max_right size 1)), ?_, ?_⟩
  · rw [hp.result, Nat.zero_add]
    rfl
  · rw [hp.added]
    exact congrArg (fun ms => (c.purge.addAll ms).2) hat.membersFrom_eq

/-- Six numbered documents. -/
def numbered : List Document := [1, 2, 3, 4, 5, 0].map fun i => [("id", .int i)]

/-- The restriction to numbers from two on. -/
def fromTwo : Restriction := Restriction.none.push "id" (.compare .ge (.int 2))

/-- A collection with a primary key. -/
def keyed : Collection := (Collection.empty none).withPrimaryKey "id"

/-- The four matches fill two batches, and then there is no more, though a document stands behind them. -/
theorem nextBatch_after_full : ∃ cursor, Cursor.start (Cursor.sound numbered) fromTwo = .ok cursor ∧
    (Cursor.matching fromTwo numbered).length = 4 ∧
    (∀ i (d : Collection), ([keyed, keyed] ++ [keyed])[i]? = some d →
      Takes (Cursor.matching fromTwo numbered) 2 i d) ∧
    ((ofCursor cursor 2).after [keyed, keyed]).hasMore = false ∧
    (((ofCursor cursor 2).after [keyed, keyed]).nextBatch keyed.purge).1 = .ok 0 := by
  have ht : ∀ i (d : Collection), ([keyed, keyed] ++ [keyed])[i]? = some d →
      Takes (Cursor.matching fromTwo numbered) 2 i d := by
    rintro (_ | _ | _ | i) d hd <;> cases hd <;> rfl
  have hnone : slice (Cursor.matching fromTwo numbered) 2 2 = [] := rfl
  obtain ⟨cursor, hs, hmore, hresult, -⟩ := nextBatch_after fromTwo numbered 2 [keyed, keyed] keyed ht
  exact ⟨cursor, hs, rfl, ht, Bool.eq_false_iff.mpr fun h => hmore.mp h hnone, hresult⟩

end PathQuery.BatchCursor
