import PathQuery.Proofs.Graph.Join
import PathQuery.Proofs.Graph.Run

/-!
# Proofs/Graph/Listing — a leaf gives its documents batch by batch

A leaf whose documents have keys in the fields that it tracks, and different ones in its primary key, leaves
none of them out (`Lists`).  A fetch gives the next of them (`Lists.exists_fetch`), and the last fetch finds
it exhausted (`Lists.fetch_nil`); so fetching deals them all out, in their order (`Lists.exists_gives`).
-/

namespace PathQuery

/-! ## Runs in batches -/

/-- A run that gives some rows in full batches, of which the last may be smaller. -/
structure Run.Deals (run : Run) (size : Nat) (rows : List Entity) : Prop where
  ending : run.ending = .exhausted
  rows_eq : run.rows = rows
  bounded : ∀ c ∈ run.batches, c.rows ≠ [] ∧ c.rows.length ≤ size
  full : ∀ c ∈ run.batches.dropLast, c.rows.length = size

theorem Run.batches_push {c : Collection} (hv : c.Valid) (hne : c.rows ≠ []) (run : Run) :
    (run.push c).batches = c :: run.batches := by
  rw [Run.push]
  refine if_neg fun hempty => hne ?_
  rw [Collection.isEmpty, hv.size_eq, beq_iff_eq, List.length_eq_zero_iff] at hempty
  rw [Collection.rows, hempty, List.map_nil]

/-- A batch at the front, which is full if rows follow. -/
theorem Run.Deals.push {run : Run} {size : Nat} {rows : List Entity} {c : Collection}
    (h : run.Deals size rows) (hv : c.Valid) (hne : c.rows ≠ []) (hle : c.rows.length ≤ size)
    (hfull : rows ≠ [] → c.rows.length = size) : (run.push c).Deals size (c.rows ++ rows) := by
  have hbatches := Run.batches_push hv hne run
  refine ⟨h.ending, ?_, ?_, ?_⟩
  · rw [Graph.rows_push hv, h.rows_eq]
  · rw [hbatches]
    exact List.forall_mem_cons.mpr ⟨⟨hne, hle⟩, h.bounded⟩
  · rw [hbatches]
    rcases hb : run.batches with _ | ⟨next, rest⟩
    · exact List.forall_mem_nil _
    · refine List.forall_mem_cons.mpr ⟨hfull fun hnil => ?_, hb ▸ h.full⟩
      have hrows : run.rows = next.rows ++ rest.flatMap (·.rows) := by rw [Run.rows, hb]; rfl
      rw [h.rows_eq, hnil] at hrows
      exact (h.bounded next (hb ▸ .head _)).1 (List.append_eq_nil_iff.mp hrows.symm).1

/-- The next batch of some rows, before the run that deals out the others. -/
theorem Run.Deals.push_take {run : Run} {size : Nat} {rows : List Entity} {c : Collection}
    (h : run.Deals size (rows.drop size)) (hpos : 0 < size) (hv : c.Valid) (hne : rows ≠ [])
    (hc : c.rows = rows.take size) : (run.push c).Deals size rows := by
  have hlen : c.rows.length = min size rows.length := by rw [hc, List.length_take]
  have hrows : 0 < rows.length := List.length_pos_iff.mpr hne
  have hall := h.push hv (fun hnil => ?_) (by omega) fun hrest => ?_
  · rwa [hc, List.take_append_drop] at hall
  · rw [hnil, List.length_nil] at hlen
    omega
  · rw [Ne, List.drop_eq_nil_iff, not_le] at hrest
    omega

/-! ## Fetches from a node -/

namespace Fetcher

/-- What some fetches from a node come to, one after the other. -/
def outcomes (f : Fetcher) : Nat → Node → List (Except Failure Outcome)
  | 0, _ => []
  | k + 1, n => (f.fetch n).1 :: f.outcomes k (f.fetch n).2

/-- The number of documents that a batch may have: a size of zero counts as one. -/
def bound (f : Fetcher) : Nat := max f.batchSize 1

theorem bound_pos (f : Fetcher) : 0 < f.bound := Nat.lt_of_lt_of_le Nat.one_pos (Nat.le_max_right _ _)

/-- Fetching from a node gives the batches of a run, one at a time, and then finds it exhausted. -/
def Gives (f : Fetcher) (n : Node) (run : Run) : Prop :=
  f.outcomes (run.batches.length + 1) n =
    run.batches.map (fun c => .ok (.batch c)) ++ [.ok .exhausted]

end Fetcher

namespace Node

variable {f : Fetcher} {values : Option (List Value)} {n : Node} {docs : List Document}

/-! ## Leaves that leave nothing out -/

/-- A leaf that was opened for some values and has yet to give some documents, none of which it leaves
out. -/
structure Lists (f : Fetcher) (values : Option (List Value)) (docs : List Document) (n : Node) : Prop where
  leaf : n.children = []
  columns : n.isRoot = true → n.columns = []
  opened : ∃ past batch, n.Open f values past batch docs
  keyed : ∀ doc ∈ docs, ∀ field, n.progress.results.Tracks field → (Entity.ofDocument doc).IsKeyed field
  apart : BatchCursor.KeysApart n.progress.results (docs.map Entity.ofDocument)

/-- A root without children and columns gives its rows as they are. -/
theorem combine_single (h : n.columns = []) (c : Combination) (results : Collection) :
    c.combine n results [] = .ok results := by
  cases c with
  | expand => rfl
  | projection => simp [Combination.combine, h]

theorem Lists.isLeaf (h : n.Lists f values docs) : n.isLeaf = true := by rw [Node.isLeaf, h.leaf]; rfl

/-- Fetching from a leaf is to pull from its cursor. -/
theorem fetch_leaf {b : BatchCursor} (hl : n.isLeaf = true) (hb : n.progress.cursor = some b) :
    f.fetch n = f.fetchLeaf n b := by
  rw [Fetcher.fetch, height_eq, Fetcher.fetchWithin_leaf hl hb]

/-- A leaf with no more documents to give is exhausted. -/
theorem Lists.fetch_nil (h : n.Lists f values []) : f.fetch n = (.ok .exhausted, n) := by
  obtain ⟨past, batch, ho⟩ := h.opened
  obtain ⟨b, hb, -, hg⟩ := ho.cursor
  have hmore : b.hasMore = false := Bool.eq_false_iff.mpr fun hm => hg.hasMore_iff.mp hm rfl
  rw [fetch_leaf h.isLeaf hb, Fetcher.fetchLeaf, hmore]
  rfl

/-- **A fetch** gives the next documents, as many as a batch may have. -/
theorem Lists.exists_fetch (h : n.Lists f values docs) (hne : docs ≠ []) : ∃ c n',
    f.fetch n = (.ok (.batch c), n') ∧ c.Valid ∧
      c.rows = (docs.take f.bound).map Entity.ofDocument ∧ n'.Lists f values (docs.drop f.bound) := by
  obtain ⟨past, before, ho⟩ := h.opened
  obtain ⟨b, hb, hsize, hg⟩ := ho.cursor
  replace hsize : b.batchSize = f.bound := hsize
  obtain ⟨k, n', hpull⟩ : ∃ k n', Fetcher.pull n b = (.ok k, n') := by
    obtain ⟨k, b₁, c, hnext⟩ := BatchCursor.exists_nextBatch ho.valid.toWellLaid hg h.keyed
    rw [Fetcher.pull, hnext]
    exact ⟨k, _, rfl⟩
  obtain ⟨ho', hal, -, -⟩ := Fetcher.open_of_pull ho hb hpull
  rw [hsize] at ho'
  have hapart : BatchCursor.KeysApart n'.progress.results (docs.map Entity.ofDocument) := fun field hp =>
    h.apart field ((Collection.layout_eq_iff.mp hal.layout_eq).2.1 ▸ hp)
  have hrows : n'.progress.results.rows = (docs.take f.bound).map Entity.ofDocument := by
    obtain ⟨got, -, hrows, hall⟩ := ho'.rows
    rw [hrows, hall fun field hp => (hapart field hp).sublist ((List.take_sublist _ _).map _)]
  have hmore : n'.progress.results.isEmpty = false := by
    rw [Collection.isEmpty, ho'.valid.size_eq, beq_eq_false_iff_ne, Ne, List.length_eq_zero_iff]
    intro hnil
    rw [Collection.rows, hnil, List.map_nil, eq_comm, List.map_eq_nil_iff, List.take_eq_nil_iff] at hrows
    exact hrows.elim (Nat.ne_of_gt f.bound_pos) hne
  have hcolumns : n'.isRoot = true → n'.columns = [] := fun hr =>
    hal.columns_eq.trans (h.columns (hal.isRoot_eq ▸ hr))
  have hf : f.fetch n = (.ok (.batch n'.progress.results), n') := by
    rw [fetch_leaf h.isLeaf hb, Fetcher.fetchLeaf, if_pos (show b.hasMore = true from hg.hasMore_iff.mpr hne),
      hpull]
    simp only [hmore, Bool.false_eq_true, if_false]
    split
    · rw [combine_single (hcolumns ‹_›)]
      rfl
    · rfl
  refine ⟨_, _, hf, ho'.valid, hrows, ?_, hcolumns, ⟨_, _, ho'⟩, fun doc hd field ht => ?_,
    fun field hp => ?_⟩
  · exact List.length_eq_zero_iff.mp (hal.length_eq.trans (List.length_eq_zero_iff.mpr h.leaf))
  · exact h.keyed doc (List.mem_of_mem_drop hd) field ((Collection.tracks_congr hal.layout_eq field).mp ht)
  · exact (hapart field hp).sublist ((List.drop_sublist _ _).map _)

/-- **Opening a leaf** makes it list all that its request asks for. -/
theorem exists_openCursor_leaf (values : Option (List Value)) (hl : n.Laid) (hs : n.status = .unready)
    (hleaf : n.children = []) (hcolumns : n.isRoot = true → n.columns = [])
    (hdocs : f.registry.documentsFor n.plan.request = .ok docs)
    (hkeyed : ∀ doc ∈ Cursor.matching (Fetcher.requestFor n values).restriction docs,
      ∀ field, n.progress.results.Tracks field → (Entity.ofDocument doc).IsKeyed field)
    (hapart : BatchCursor.KeysApart n.progress.results
      ((Cursor.matching (Fetcher.requestFor n values).restriction docs).map Entity.ofDocument)) :
    ∃ n', f.openCursor values n = (.ok (), n') ∧
      n'.Lists f values (Cursor.matching (Fetcher.requestFor n values).restriction docs) := by
  obtain ⟨b, hb, -⟩ := Registry.fetchBatches_of_documentsFor
    ((Fetcher.documentsFor_requestFor f.registry n values).trans hdocs) f.batchSize
  have hisLeaf : n.isLeaf = true := by rw [isLeaf, hleaf]; rfl
  obtain ⟨n', hopen⟩ : ∃ n', f.openCursor values n = (.ok (), n') := by
    rw [Fetcher.openCursor, if_neg (not_not.mpr hs), hb]
    exact ⟨_, if_pos hisLeaf⟩
  obtain ⟨batch, ahead, ho, hal, hchildren, -, hnil⟩ := Fetcher.open_of_openCursor hl hopen
  obtain rfl := hnil hisLeaf
  obtain rfl : ahead = Cursor.matching (Fetcher.requestFor n values).restriction docs := by
    obtain ⟨docs', hdocs', hahead⟩ := ho.source
    rw [Fetcher.requestFor_congr hal.plan_eq] at hahead
    rw [hal.plan_eq] at hdocs'
    cases hdocs.symm.trans hdocs'
    exact hahead
  refine ⟨n', hopen, hchildren.trans hleaf, fun hr => ?_, ⟨_, _, ho⟩, fun doc hd field ht => ?_,
    fun field hp => ?_⟩
  · exact hal.columns_eq.trans (hcolumns (hal.isRoot_eq ▸ hr))
  · exact hkeyed doc hd field ((Collection.tracks_congr hal.layout_eq field).mp ht)
  · exact hapart field ((Collection.layout_eq_iff.mp hal.layout_eq).2.1 ▸ hp)

/-! ## All fetches -/

/-- **Fetching from a leaf deals out its documents.** -/
theorem Lists.exists_gives (h : n.Lists f values docs) :
    ∃ run : Run, run.Deals f.bound (docs.map Entity.ofDocument) ∧ f.Gives n run := by
  -- each fetch leaves fewer documents
  induction hlen : docs.length using Nat.strong_induction_on generalizing n docs with
  | _ len ih =>
    by_cases hne : docs = []
    · subst hne
      refine ⟨⟨[], 1, .exhausted⟩, ⟨rfl, rfl, List.forall_mem_nil _, List.forall_mem_nil _⟩, ?_⟩
      rw [Fetcher.Gives, List.length_nil, Fetcher.outcomes, Fetcher.outcomes, h.fetch_nil]
      rfl
    · obtain ⟨c, n', hf, hv, hrows, h'⟩ := h.exists_fetch hne
      have hpos : 0 < docs.length := List.length_pos_iff.mpr hne
      have hbound := f.bound_pos
      obtain ⟨run, hdeals, hgives⟩ := ih _ (by rw [List.length_drop]; omega) h' rfl
      rw [List.map_drop] at hdeals
      rw [List.map_take] at hrows
      have hmore : docs.map Entity.ofDocument ≠ [] := mt List.map_eq_nil_iff.mp hne
      refine ⟨run.push c, hdeals.push_take hbound hv hmore hrows, ?_⟩
      have hrow : c.rows ≠ [] := by
        rw [hrows, Ne, List.take_eq_nil_iff, not_or]
        exact ⟨Nat.ne_of_gt hbound, hmore⟩
      rw [Fetcher.Gives, Run.batches_push hv hrow, List.length_cons, Fetcher.outcomes, hf, hgives]
      rfl

end Node

end PathQuery
