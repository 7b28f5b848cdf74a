import PathQuery.Proofs.Graph.Steps
import PathQuery.Proofs.Graph.Tree
import PathQuery.Proofs.Store.Batch

/-!
# Proofs/Graph/Active — what a node holds while it is fetched from

An active node holds a batch of the documents that it was opened for, and its first children hold what
they gave for this batch.  Each child was opened for the values that the batch and the results of the child
before it ask for now (`Active`), so no kept result is older than the batch.
-/

namespace PathQuery

namespace Node

/-! ## Idle nodes -/

/-- A node that has neither cursor nor kept results, here and below. -/
def Idle (n : Node) : Prop := n.reset = n

variable {n m : Node}

theorem idle_reset (n : Node) : n.reset.Idle := by
  induction n using Node.induction with
  | node n ih =>
    obtain ⟨plan, progress, children⟩ := n
    have hmap : (children.map reset).map reset = children.map reset := by
      rw [List.map_map]
      exact List.map_congr_left fun child hc => ih child hc
    rw [Idle, reset, reset, resetOf_eq, resetOf_eq, hmap]

theorem idle_iff : n.Idle ↔ n.progress.cursor = none ∧ n.progress.childResults = [] ∧
    ∀ child ∈ n.children, child.Idle := by
  obtain ⟨plan, ⟨results, cursor, kept⟩, children⟩ := n
  rw [Idle, reset, resetOf_eq]
  simp only [mk.injEq, Progress.mk.injEq, true_and]
  have hmap : children.map reset = children ↔ ∀ child ∈ children, child.reset = child := by
    constructor
    · intro h child hc
      obtain ⟨i, hi⟩ := List.mem_iff_getElem?.mp hc
      have := congrArg (·[i]?) h
      simpa [hi] using this
    · exact fun h => (List.map_congr_left h).trans (List.map_id _)
  rw [hmap, eq_comm (a := none), eq_comm (a := [])]
  exact and_assoc

theorem Idle.cursor (h : n.Idle) : n.progress.cursor = none := (idle_iff.mp h).1

theorem Idle.childResults (h : n.Idle) : n.progress.childResults = [] := (idle_iff.mp h).2.1

theorem Idle.child (h : n.Idle) {child : Node} (hc : child ∈ n.children) : child.Idle :=
  (idle_iff.mp h).2.2 child hc

theorem Idle.status (h : n.Idle) : n.status = .unready := status_eq_unready.mpr h.cursor

theorem Idle.joinedStatus (h : n.Idle) : n.joinedStatus = .unready := joinedStatus_eq_unready.mpr h.cursor

theorem idle_resetChildren (n : Node) : ∀ child ∈ n.resetChildren.children, child.Idle := by
  intro child hc
  rw [resetChildren, resetOf_eq] at hc
  obtain ⟨c, -, rfl⟩ := List.mem_map.mp hc
  exact idle_reset c

/-! ## Nodes with a cursor -/

/-- A node that was opened for some values: the documents before its batch, those of its batch, and those
that its cursor has yet to give are all the documents that it was opened for.  A batch has the size that the
nodes share, or less. -/
structure Open (f : Fetcher) (values : Option (List Value)) (past batch ahead : List Document)
    (n : Node) : Prop where
  source : ∃ docs, f.registry.documentsFor n.plan.request = .ok docs ∧
    past ++ batch ++ ahead = Cursor.matching (Fetcher.requestFor n values).restriction docs
  cursor : ∃ b, n.progress.cursor = some b ∧ b.batchSize = max f.batchSize 1 ∧ b.cursor.Gives ahead
  small : batch.length ≤ max f.batchSize 1
  valid : n.progress.results.Valid
  apart : n.progress.results.Apart
  rows : ∃ got : List Document, got.Sublist batch ∧
    n.progress.results.rows = got.map Entity.ofDocument ∧
    (BatchCursor.KeysApart n.progress.results (batch.map Entity.ofDocument) → got = batch)

/-- What a node gives in its state, if the last of its children has results. -/
def Gave (f : Fetcher) (n : Node) (c : Collection) : Prop :=
  n.progress.childResults.length = n.children.length ∧
    f.combination.combine n n.progress.results n.progress.childResults = .ok c

/-- How far the children of a node are: the first have given results, the next may be opened, and those
after it are idle. -/
structure Staged (f : Fetcher) (n : Node) : Prop where
  short : n.progress.childResults.length ≤ n.children.length
  gave : ∀ (i : Nat) (child : Node) (c : Collection), n.children[i]? = some child →
    n.progress.childResults[i]? = some c → ¬ child.Idle ∧ Gave f child c
  asked : ∀ (i : Nat) (child : Node), i ≤ n.progress.childResults.length →
    n.children[i]? = some child → ¬ child.Idle → ∃ vals, Fetcher.valuesFor n i child = .ok vals
  idle : ∀ (i : Nat) (child : Node), n.progress.childResults.length < i →
    n.children[i]? = some child → child.Idle

/-- **A node that is being fetched from.**  Its children that are not idle are active for the values that
they are asked for now. -/
inductive Active (f : Fetcher) : Option (List Value) → Node → Prop where
  | node {values : Option (List Value)} {n : Node} {past batch ahead : List Document}
    (opened : n.Open f values past batch ahead) (staged : n.Staged f)
    (below : ∀ (i : Nat) (child : Node) (vals : List Value), n.children[i]? = some child →
      ¬ child.Idle → Fetcher.valuesFor n i child = .ok vals → Active f (some vals) child) :
    Active f values n

variable {f : Fetcher} {values : Option (List Value)}

theorem Open.cursor_ne {past batch ahead : List Document} (h : n.Open f values past batch ahead) :
    n.progress.cursor ≠ none := by
  obtain ⟨b, hb, -⟩ := h.cursor
  rw [hb]
  exact Option.some_ne_none b

/-- The cursor of an open node gives what is ahead, batch by batch. -/
theorem Open.gives {past batch ahead : List Document} (h : n.Open f values past batch ahead)
    {b : BatchCursor} (hb : n.progress.cursor = some b) :
    b.batchSize = max f.batchSize 1 ∧ b.cursor.Gives ahead := by
  obtain ⟨b', hb', hsize, hg⟩ := h.cursor
  cases hb.symm.trans hb'
  exact ⟨hsize, hg⟩

theorem Active.exists_open (h : Active f values n) : ∃ past batch ahead,
    n.Open f values past batch ahead := by
  cases h with
  | node opened => exact ⟨_, _, _, opened⟩

theorem Active.staged (h : Active f values n) : n.Staged f := by
  cases h with
  | node _ staged => exact staged

theorem Active.child (h : Active f values n) {i : Nat} {child : Node} {vals : List Value}
    (hc : n.children[i]? = some child) (hi : ¬ child.Idle)
    (hv : Fetcher.valuesFor n i child = .ok vals) : Active f (some vals) child := by
  cases h with
  | node _ _ below => exact below i child vals hc hi hv

/-- A child that is not idle is active for what it is asked for. -/
theorem Active.exists_vals (h : Active f values n) {i : Nat} {child : Node}
    (hc : n.children[i]? = some child) (hn : ¬ child.Idle) :
    i ≤ n.progress.childResults.length ∧
      ∃ vals, Fetcher.valuesFor n i child = .ok vals ∧ Active f (some vals) child := by
  have hle : i ≤ n.progress.childResults.length := by
    by_contra hlt
    exact hn (h.staged.idle i child (Nat.lt_of_not_le hlt) hc)
  obtain ⟨vals, hv⟩ := h.staged.asked i child hle hc hn
  exact ⟨hle, vals, hv, h.child hc hn hv⟩

theorem Active.not_idle (h : Active f values n) : ¬ n.Idle := fun hi => by
  obtain ⟨_, _, _, ho⟩ := h.exists_open
  exact ho.cursor_ne hi.cursor

theorem Active.joinedStatus_ne (h : Active f values n) : n.joinedStatus ≠ .unready := fun hs => by
  obtain ⟨_, _, _, ho⟩ := h.exists_open
  exact ho.cursor_ne (joinedStatus_eq_unready.mp hs)

/-- **A child that has given results** is active and holds what it was combined with. -/
theorem Active.exists_gave (h : Active f values n) {i : Nat} {child : Node} {c : Collection}
    (hc : n.children[i]? = some child) (hd : n.progress.childResults[i]? = some c) :
    ∃ vals, Active f (some vals) child ∧ Gave f child c := by
  obtain ⟨hidle, hgave⟩ := h.staged.gave i child c hc hd
  obtain ⟨-, vals, -, hactive⟩ := h.exists_vals hc hidle
  exact ⟨vals, hactive, hgave⟩

/-! ## Results for every child -/

variable (hlen : n.progress.childResults.length = n.children.length)

include hlen

theorem exists_childResult {i : Nat} {child : Node} (hc : n.children[i]? = some child) :
    ∃ c, n.progress.childResults[i]? = some c := by
  have hlt := (List.getElem?_eq_some_iff.mp hc).1
  exact ⟨_, List.getElem?_eq_getElem (hlen.symm ▸ hlt)⟩

theorem childResults_eq_nil_iff : n.progress.childResults = [] ↔ n.children = [] := by
  rw [← List.length_eq_zero_iff, hlen, List.length_eq_zero_iff]

end Node

namespace Fetcher

open Node

variable {f : Fetcher} {values : Option (List Value)} {n n' : Node}

/-! ## Opening and pulling -/

/-- A restriction to values leaves the resource of a request as it is. -/
theorem documentsFor_requestFor (r : Registry) (n : Node) (values : Option (List Value)) :
    r.documentsFor (requestFor n values) = r.documentsFor n.plan.request := by
  unfold requestFor
  split <;> rfl

/-- The cursor of an opened node is at the start of what the node was opened for. -/
theorem gives_of_fetchBatches {b : BatchCursor}
    (h : f.registry.fetchBatches (requestFor n values) f.batchSize = .ok b) :
    ∃ docs, f.registry.documentsFor n.plan.request = .ok docs ∧ b.batchSize = max f.batchSize 1 ∧
      b.cursor.Gives (Cursor.matching (requestFor n values).restriction docs) := by
  rw [← documentsFor_requestFor f.registry n values]
  exact Registry.gives_of_fetchBatches h

theorem requestFor_congr (h : n.plan = n'.plan) : requestFor n values = requestFor n' values := by
  unfold requestFor
  rw [h]

theorem requestFor_none (n : Node) : requestFor n none = n.plan.request := by
  unfold requestFor
  split <;> simp_all

theorem requestFor_of_edge {edge : Navigation} (h : n.plan.edge = some edge) (vals : List Value) :
    requestFor n (some vals) = n.plan.request.restrictTo edge.relatedKey vals := by
  unfold requestFor
  rw [h]

/-- **Opening a node** takes its first batch, or none at a leaf. -/
theorem open_of_openCursor (hl : n.Laid) (h : f.openCursor values n = (.ok (), n')) :
    ∃ batch ahead, n'.Open f values [] batch ahead ∧ n'.Alike n ∧ n'.children = n.children ∧
      n'.progress.childResults = [] ∧ (n.isLeaf = true → batch = []) := by
  revert h
  refine openCursor_rule ?_ ?_ ?_ ?_ ?_
  · rintro - ⟨⟩
  · rintro e - - ⟨⟩
  · rintro b - hb hleaf ⟨⟩
    obtain ⟨docs, hdocs, hsize, hg⟩ := gives_of_fetchBatches hb
    exact ⟨[], _, ⟨⟨docs, hdocs, rfl⟩, ⟨b, rfl, hsize, hg⟩, Nat.zero_le _, hl.wellLaid.purge,
      Collection.apart_of_slots_eq_nil rfl, [], .slnil, rfl, fun _ => rfl⟩,
      alike_of_progress (purge_purge _), rfl, rfl, fun _ => rfl⟩
  · rintro b e b' results - - - - ⟨⟩
  · rintro b k b₁ c - hb hleaf hbatch ⟨⟩
    obtain ⟨docs, hdocs, hsize, hg⟩ := gives_of_fetchBatches hb
    obtain ⟨hp, got, hsub, hrows, hall⟩ := BatchCursor.rows_of_nextBatch hl.wellLaid hg hbatch
    refine ⟨_, _, ⟨⟨docs, hdocs, ?_⟩, ⟨b₁, rfl, hp.batchSize_eq.trans hsize, hp.gives⟩,
      hsize ▸ List.length_take_le _ _, hp.valid, hp.apart, got, hsub, hrows, hall⟩, alike_of_progress ?_, rfl,
      rfl, fun h => absurd h ?_⟩
    · rw [List.nil_append, List.take_append_drop]
      rfl
    · exact Collection.purge_congr (hp.layout_eq.trans (Collection.layout_purge _))
    · exact Bool.eq_false_iff.mp hleaf

/-- **Pulling** takes the next batch. -/
theorem open_of_pull {past batch ahead : List Document} {b : BatchCursor} {k : Nat}
    (ho : n.Open f values past batch ahead) (hb : n.progress.cursor = some b)
    (h : pull n b = (.ok k, n')) :
    n'.Open f values (past ++ batch) (ahead.take b.batchSize) (ahead.drop b.batchSize) ∧
      n'.Alike n ∧ n'.children = n.children ∧
      n'.progress.childResults = n.progress.childResults := by
  obtain ⟨docs, hdocs, hsplit⟩ := ho.source
  obtain ⟨hsize, hg⟩ := ho.gives hb
  rw [pull] at h
  split at h
  rename_i pulled b₁ c hbatch
  cases h
  obtain ⟨hp, got, hsub, hrows, hall⟩ :=
    BatchCursor.rows_of_nextBatch ho.valid.toWellLaid hg hbatch
  refine ⟨⟨⟨docs, hdocs, ?_⟩, ⟨b₁, rfl, hp.batchSize_eq.trans hsize, hp.gives⟩,
    hsize ▸ List.length_take_le _ _, hp.valid, hp.apart, got, hsub, hrows, hall⟩, alike_of_progress ?_, rfl, rfl⟩
  · rw [List.append_assoc, List.take_append_drop]
    exact hsplit
  · exact Collection.purge_congr (hp.layout_eq.trans (Collection.layout_purge _))

end Fetcher

end PathQuery
