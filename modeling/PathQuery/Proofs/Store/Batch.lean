import PathQuery.Proofs.Result.Find
import PathQuery.Proofs.Store.Cursor

/-!
# Proofs/Store/Batch — a batch is the next documents of its cursor

The rows that a batch adds to a collection are, in order, some of the next documents of the cursor: those
of a primary key that is not there yet, and all of them if no key repeats.
-/

namespace PathQuery.BatchCursor

/-! ## What a pull comes to -/

/-- The rows that were added are among the next documents, and the parts of the collection agree. -/
structure Pulled (docs : List Document) (count : Nat) (b : BatchCursor) (c : Collection)
    (b' : BatchCursor) (c' : Collection) : Prop extends c'.Numbered b'.pulled where
  gives : b'.cursor.Gives (docs.drop count)
  restriction_eq : b'.cursor.restriction = b.cursor.restriction
  batchSize_eq : b'.batchSize = b.batchSize
  layout_eq : c'.layout = c.layout
  rows : ∃ got : List Document, got.Sublist (docs.take count) ∧
    c'.rows = c.rows ++ got.map Entity.ofDocument

variable {docs : List Document} {count moved n : Nat} {b b' : BatchCursor} {c c' : Collection}

/-- **A pull that does not fail** adds some of the next documents. -/
theorem pulled_of_pull (hg : b.cursor.Gives docs) (hn : c.Numbered b.pulled)
    (h : pull count moved b c = (.ok n, b', c')) : Pulled docs count b c b' c' := by
  induction count generalizing moved b c docs with
  | zero =>
    cases h
    exact ⟨hn, by simpa using hg, rfl, rfl, rfl, [], .slnil, by simp⟩
  | succ count ih =>
    obtain ⟨cursor, hnext, hr, hg'⟩ := hg.exists_next
    rw [pull, hnext] at h
    cases docs with
    | nil =>
      cases h
      exact ⟨hn, by simpa using hg', hr, rfl, rfl, [], .slnil, by simp⟩
    | cons doc rest =>
      simp only [List.head?_cons] at h
      cases hadd : c.add ⟨b.pulled, Entity.ofDocument doc⟩ with
      | error f => rw [hadd] at h; obtain ⟨⟩ := h
      | ok added =>
        rw [hadd] at h
        obtain ⟨hnd, hl, hd⟩ := hn.add hadd
        obtain ⟨hn', g, r, z, l, got, hsub, hrows⟩ := ih hg' hnd h
        rcases hd with ⟨-, hd⟩ | hd
        · exact ⟨hn', g, r.trans hr, z, l.trans hl, got, hsub.cons _, hd ▸ hrows⟩
        · refine ⟨hn', g, r.trans hr, z, l.trans hl, doc :: got, hsub.cons_cons _, ?_⟩
          rw [hrows, hd]
          simp

/-! ## What is ahead shrinks -/

/-- A pull takes from what is ahead, also one that fails. -/
theorem length_ahead_pull (count moved : Nat) (b : BatchCursor) (c : Collection) :
    (pull count moved b c).2.1.batchSize = b.batchSize ∧
      (pull count moved b c).2.1.cursor.ahead.length ≤ b.cursor.ahead.length ∧
      (0 < count → b.hasMore = true →
        (pull count moved b c).2.1.cursor.ahead.length < b.cursor.ahead.length) := by
  induction count generalizing moved b c with
  | zero => exact ⟨rfl, Nat.le_refl _, fun h => absurd h (Nat.lt_irrefl 0)⟩
  | succ count ih =>
    rw [pull]
    cases hm : b.cursor.hasMore with
    | false =>
      rw [Cursor.next_of_not_hasMore hm]
      exact ⟨rfl, Nat.le_refl _, fun _ h => nomatch hm.symm.trans h⟩
    | true =>
      have hlen := Cursor.length_ahead_next hm
      rcases hnext : b.cursor.next with ⟨_ | _ | doc, cursor⟩ <;> rw [hnext] at hlen <;>
        dsimp only at hlen ⊢
      · exact ⟨rfl, by omega, fun _ _ => by omega⟩
      · exact ⟨rfl, by omega, fun _ _ => by omega⟩
      · cases c.add ⟨b.pulled, Entity.ofDocument doc⟩ with
        | error f => exact ⟨rfl, by dsimp only; omega, fun _ _ => by dsimp only; omega⟩
        | ok added =>
          obtain ⟨hsize, hle, -⟩ := ih (moved + 1) { b with cursor, pulled := b.pulled + 1 } added.2
          dsimp only at hle ⊢
          exact ⟨hsize, by omega, fun _ _ => by omega⟩

/-! ## Nothing is left out -/

/-- The rows of some documents have different keys in the primary key of a collection. -/
def KeysApart (c : Collection) (rows : List Entity) : Prop :=
  ∀ field, c.primaryKey = some field → rows.Pairwise fun a b => a.keyOf field ≠ b.keyOf field

/-- **No document is left out** where no key repeats. -/
theorem rows_of_pull (hg : b.cursor.Gives docs) (hn : c.Numbered b.pulled)
    (hk : KeysApart c (c.rows ++ (docs.take count).map Entity.ofDocument))
    (h : pull count moved b c = (.ok n, b', c')) :
    c'.rows = c.rows ++ (docs.take count).map Entity.ofDocument := by
  induction count generalizing moved b c docs with
  | zero => cases h; simp
  | succ count ih =>
    obtain ⟨cursor, hnext, hr, hg'⟩ := hg.exists_next
    rw [pull, hnext] at h
    cases docs with
    | nil => cases h; simp
    | cons doc rest =>
      simp only [List.head?_cons] at h
      cases hadd : c.add ⟨b.pulled, Entity.ofDocument doc⟩ with
      | error f => rw [hadd] at h; obtain ⟨⟩ := h
      | ok added =>
        rw [hadd] at h
        obtain ⟨hnd, hl, hd⟩ := hn.add hadd
        have hnew : ¬ c.Present ⟨b.pulled, Entity.ofDocument doc⟩ := by
          refine hn.not_present fun field hp row hrow => ?_
          exact (List.pairwise_append.mp (hk field hp)).2.2 row hrow _ (by simp)
        have hrows := hd.resolve_left fun hp => hnew hp.1
        have hkd : KeysApart added.2 (added.2.rows ++ (rest.take count).map Entity.ofDocument) := by
          intro field hp
          have := hk field ((Collection.layout_eq_iff.mp hl).2.1 ▸ hp)
          simpa [hrows] using this
        rw [ih hg' hnd hkd h, hrows]
        simp

theorem ofDocument_injective : Function.Injective Entity.ofDocument := fun a b h => by
  rw [← Entity.toDocument_ofDocument a, h, Entity.toDocument_ofDocument]

/-- **A batch in place of the rows that were there**: the next documents, or some of them. -/
theorem rows_of_nextBatch (hc : c.WellLaid) (hg : b.cursor.Gives docs)
    (h : b.nextBatch c.purge = (.ok n, b', c')) :
    Pulled docs b.batchSize b c.purge b' c' ∧
      ∃ got : List Document, got.Sublist (docs.take b.batchSize) ∧
        c'.rows = got.map Entity.ofDocument ∧
        (KeysApart c' ((docs.take b.batchSize).map Entity.ofDocument) →
          got = docs.take b.batchSize) := by
  have hn : c.purge.Numbered b.pulled :=
    ⟨hc.purge, Collection.apart_of_slots_eq_nil rfl, by simp⟩
  have hp := pulled_of_pull hg hn h
  obtain ⟨got, hsub, hrows⟩ := hp.rows
  refine ⟨hp, got, hsub, hrows, fun hk => ?_⟩
  have hall := rows_of_pull hg hn (fun field hf => hk field
    ((Collection.layout_eq_iff.mp hp.layout_eq).2.1.trans hf)) h
  exact List.map_injective_iff.mpr ofDocument_injective (hrows.symm.trans hall)

/-! ## Pulls that do not fail -/

/-- Documents with keys in the tracked fields can be pulled. -/
theorem exists_pull (hg : b.cursor.Gives docs) (hn : c.Numbered b.pulled)
    (hk : ∀ doc ∈ docs, ∀ field, c.Tracks field → (Entity.ofDocument doc).IsKeyed field) :
    ∃ n b' c', pull count moved b c = (.ok n, b', c') := by
  induction count generalizing moved b c docs with
  | zero => exact ⟨_, _, _, rfl⟩
  | succ count ih =>
    obtain ⟨cursor, hnext, hr, hg'⟩ := hg.exists_next
    rw [pull, hnext]
    cases docs with
    | nil => exact ⟨_, _, _, rfl⟩
    | cons doc rest =>
      obtain ⟨isNew, d, hadd⟩ := Collection.exists_add (m := ⟨b.pulled, Entity.ofDocument doc⟩)
        (hk doc (.head _))
      obtain ⟨hnd, hl, -⟩ := hn.add hadd
      simp only [List.head?_cons, hadd]
      exact ih hg' hnd fun doc' hd' field hf =>
        hk doc' (.tail _ hd') field ((Collection.tracks_congr hl field).mp hf)

/-- Documents with keys in the tracked fields make a batch. -/
theorem exists_nextBatch (hc : c.WellLaid) (hg : b.cursor.Gives docs)
    (hk : ∀ doc ∈ docs, ∀ field, c.Tracks field → (Entity.ofDocument doc).IsKeyed field) :
    ∃ n b' c', b.nextBatch c.purge = (.ok n, b', c') :=
  exists_pull hg ⟨hc.purge, Collection.apart_of_slots_eq_nil rfl, by simp⟩ fun doc hd field hf =>
    hk doc hd field ((Collection.tracks_congr (Collection.layout_purge c) field).mp hf)

end PathQuery.BatchCursor
