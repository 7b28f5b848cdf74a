import PathQuery.Proofs.Graph.Completion
import PathQuery.Proofs.Graph.Preserved

/-!
# Proofs/Graph/Afresh — a graph that was reset runs as it ran when it was built

What a node holds without a cursor is never read: opening the node purges its rows and forgets the results
that it kept.  Two states of a tree that differ in no more (`Node.ReadsAs`) come to the same with every
fetch and leave states that differ in no more (`Fetcher.same_fetchWithin`).  A tree that was reset and the
tree as it was built are two such states, whatever was called before and wherever it failed.
-/

namespace PathQuery

/-! ## What can be read of a tree -/

/-- What can be read of the progress of a node: without a cursor no more than the layout of the rows. -/
def Node.Progress.readable (p : Node.Progress) : Node.Progress :=
  match p.cursor with
  | none => ⟨p.results.purge, none, []⟩
  | some _ => p

namespace Node

variable {n m k l : Node} {p : Progress}

@[simp] theorem Progress.cursor_readable (p : Progress) : p.readable.cursor = p.cursor := by
  rw [readable]
  split <;> simp_all

@[simp] theorem Progress.purge_readable (p : Progress) : p.readable.results.purge = p.results.purge := by
  rw [readable]
  split
  · exact purge_purge _
  · rfl

theorem Progress.readable_of_none (h : p.cursor = none) : p.readable = ⟨p.results.purge, none, []⟩ := by
  rw [readable, h]

theorem Progress.readable_of_ne_none (h : p.cursor ≠ none) : p.readable = p := by
  rw [readable]
  split
  · exact absurd ‹_› h
  · rfl

mutual

/-- The tree with what can be read of its progress. -/
def readable : Node → Node
  | ⟨plan, progress, children⟩ => ⟨plan, progress.readable, readableOf children⟩

/-- `readable` over a list of nodes. -/
def readableOf : List Node → List Node
  | [] => []
  | n :: rest => n.readable :: readableOf rest

end

theorem readable_eq (n : Node) : n.readable = ⟨n.plan, n.progress.readable, n.children.map readable⟩ := by
  have hof : ∀ ns : List Node, readableOf ns = ns.map readable := by
    intro ns
    induction ns with
    | nil => rfl
    | cons n rest ih => rw [readableOf, ih, List.map_cons]
  obtain ⟨plan, progress, children⟩ := n
  rw [readable, hof]

/-- What can be read is progress on the same tree. -/
theorem blank_readable (n : Node) : n.readable.blank = n.blank := by
  induction n using Node.induction with
  | node n ih =>
    rw [readable_eq, blank_eq, blank_eq, Progress.purge_readable, List.map_map]
    exact congrArg _ (List.map_congr_left ih)

/-- Nothing can be read of a tree that was reset. -/
theorem readable_reset (n : Node) : n.reset.readable = n.blank := by
  induction n using Node.induction with
  | node n ih =>
    rw [reset_eq, readable_eq, blank_eq, Progress.readable_of_none rfl, List.map_map]
    exact congrArg _ (List.map_congr_left ih)

@[simp] theorem status_readable (n : Node) : n.readable.status = n.status := by
  rw [readable_eq, status, Progress.cursor_readable]
  rfl

@[simp] theorem joinedStatus_readable (n : Node) : n.readable.joinedStatus = n.joinedStatus := by
  rw [joinedStatus, joinedStatus, status_readable, readable_eq, List.any_map]
  simp only [Function.comp_def, status_readable]

/-! ## States from which the same is read -/

/-- Two states of a tree from which the same can be read. -/
def ReadsAs (n m : Node) : Prop := n.readable = m.readable

theorem readsAs_iff : n.ReadsAs m ↔ n.plan = m.plan ∧ n.progress.readable = m.progress.readable ∧
    n.children.map readable = m.children.map readable := by
  rw [ReadsAs, readable_eq, readable_eq m]
  simp

theorem ReadsAs.alike (h : n.ReadsAs m) : n.Alike m := by
  rw [Alike, ← blank_readable, ← blank_readable m, h]

theorem ReadsAs.cursor_eq (h : n.ReadsAs m) : n.progress.cursor = m.progress.cursor := by
  have := congrArg Progress.cursor (readsAs_iff.mp h).2.1
  simpa using this

/-- All of a node with a cursor can be read. -/
theorem ReadsAs.progress_eq (h : n.ReadsAs m) (hcur : n.progress.cursor ≠ none) : n.progress = m.progress := by
  have hread := (readsAs_iff.mp h).2.1
  rwa [Progress.readable_of_ne_none hcur, Progress.readable_of_ne_none (h.cursor_eq ▸ hcur)] at hread

theorem ReadsAs.joinedStatus_eq (h : n.ReadsAs m) : n.joinedStatus = m.joinedStatus := by
  rw [← joinedStatus_readable, ← joinedStatus_readable m, h]

theorem ReadsAs.status_eq (h : n.ReadsAs m) : n.status = m.status := by
  rw [← status_readable, ← status_readable m, h]

theorem ReadsAs.name_eq (h : n.ReadsAs m) : n.name = m.name := by rw [name, name, h.alike.plan_eq]

theorem ReadsAs.exists_child (h : n.ReadsAs m) {i : Nat} (hk : n.children[i]? = some k) :
    ∃ l, m.children[i]? = some l ∧ k.ReadsAs l := by
  obtain ⟨l, hl, -⟩ := h.alike.exists_child hk
  have := congrArg (·[i]?) (readsAs_iff.mp h).2.2
  exact ⟨l, hl, by simpa [hk, hl, ReadsAs] using this⟩

theorem ReadsAs.withProgress (h : n.ReadsAs m) (p : Progress) :
    ReadsAs { n with progress := p } { m with progress := p } :=
  readsAs_iff.mpr ⟨h.alike.plan_eq, rfl, (readsAs_iff.mp h).2.2⟩

theorem ReadsAs.setChild (h : n.ReadsAs m) (hk : k.ReadsAs l) (i : Nat) :
    (n.setChild i k).ReadsAs (m.setChild i l) := by
  obtain ⟨hplan, hprogress, hchildren⟩ := readsAs_iff.mp h
  refine readsAs_iff.mpr ⟨hplan, hprogress, ?_⟩
  rw [Node.setChild, Node.setChild, List.map_set, List.map_set, hchildren, hk]

theorem ReadsAs.keepBefore (h : n.ReadsAs m) (hcur : n.progress.cursor ≠ none) (i : Nat) :
    (n.keepBefore i).ReadsAs (m.keepBefore i) := by
  rw [Node.keepBefore, Node.keepBefore, h.progress_eq hcur]
  exact h.withProgress _

theorem ReadsAs.keepResults (h : n.ReadsAs m) (hcur : n.progress.cursor ≠ none) (i : Nat) (c : Collection) :
    (n.keepResults i c).ReadsAs (m.keepResults i c) := by
  rw [Node.keepResults, Node.keepResults, h.progress_eq hcur]
  exact h.withProgress _

/-- Two states of one tree are reset to the same. -/
theorem Alike.readsAs_reset (h : n.Alike m) : n.reset.ReadsAs m.reset := by
  rw [ReadsAs, readable_reset, readable_reset, h]

theorem Alike.readsAs_of_idle (h : n.Alike m) (hn : n.Idle) (hm : m.Idle) : n.ReadsAs m := by
  have := h.readsAs_reset
  rwa [hn, hm] at this

theorem ReadsAs.resetChildren (h : n.ReadsAs m) (hcur : n.progress.cursor ≠ none) :
    n.resetChildren.ReadsAs m.resetChildren := by
  refine readsAs_iff.mpr ⟨h.alike.plan_eq, ?_, ?_⟩
  · rw [Node.resetChildren, Node.resetChildren, h.progress_eq hcur]
  · rw [Node.resetChildren, Node.resetChildren, resetOf_eq, resetOf_eq, List.map_map, List.map_map]
    simp only [Function.comp_def, readable_reset]
    exact (alike_iff.mp h.alike).2.2

end Node

/-- What a node combines depends on the tree alone. -/
theorem Combination.combine_congr {n m : Node} (h : n.Alike m) (c : Combination) (results : Collection)
    (children : List Collection) : c.combine n results children = c.combine m results children := by
  cases c with
  | expand => rfl
  | projection => rw [combine, combine, h.isRoot_eq, h.columns_eq, h.plan_eq]

namespace Fetcher

open Node

variable {f : Fetcher} {fetch : Node → Except Failure Outcome × Node} {n m k l : Node} {b : BatchCursor}

/-! ## Steps of a fetch -/

/-- Two steps that give the same and leave states from which the same can be read. -/
structure Same {α : Type} (p q : α × Node) : Prop where
  outcome : p.1 = q.1
  readsAs : p.2.ReadsAs q.2

theorem Same.exists_eq {α : Type} {p q : α × Node} (h : Same p q) :
    ∃ r n m, p = (r, n) ∧ q = (r, m) ∧ n.ReadsAs m :=
  ⟨p.1, p.2, q.2, rfl, by rw [h.outcome], h.readsAs⟩

theorem same_openCursor (f : Fetcher) (values : Option (List Value)) (h : n.ReadsAs m) :
    Same (f.openCursor values n) (f.openCursor values m) := by
  by_cases hcur : n.progress.cursor = none
  · -- without a cursor the rows are purged before anything is added to them
    have hn := Progress.readable_of_none hcur
    have hm := Progress.readable_of_none (h.cursor_eq ▸ hcur)
    have hpurge : n.progress.results.purge = m.progress.results.purge :=
      congrArg Progress.results (hn.symm.trans ((readsAs_iff.mp h).2.1.trans hm))
    rw [openCursor, openCursor, h.status_eq, h.name_eq, requestFor_congr h.alike.plan_eq, h.alike.isLeaf_eq,
      hpurge]
    split
    · exact ⟨rfl, h⟩
    · cases f.registry.fetchBatches (requestFor m values) f.batchSize with
      | error e => exact ⟨rfl, h⟩
      | ok b =>
        dsimp only
        split
        · exact ⟨rfl, h.withProgress _⟩
        · generalize b.nextBatch m.progress.results.purge = next
          obtain ⟨_ | _, b', results⟩ := next
          · exact ⟨rfl, h.withProgress _⟩
          · exact ⟨rfl, h.withProgress _⟩
  · rw [openCursor_of_ne_none f values hcur, openCursor_of_ne_none f values (h.cursor_eq ▸ hcur), h.name_eq]
    exact ⟨rfl, h⟩

theorem same_pull (h : n.ReadsAs m) (hcur : n.progress.cursor ≠ none) (b : BatchCursor) :
    Same (pull n b) (pull m b) := by
  rw [pull, pull, h.progress_eq hcur]
  exact ⟨rfl, h.withProgress _⟩

theorem same_fetchLeaf (f : Fetcher) (h : n.ReadsAs m) (hcur : n.progress.cursor ≠ none) (b : BatchCursor) :
    Same (f.fetchLeaf n b) (f.fetchLeaf m b) := by
  rw [fetchLeaf, fetchLeaf]
  split
  · have hpulled : (pull n b).2.progress.cursor ≠ none := Option.some_ne_none _
    obtain ⟨r, n', m', hn, hm, hread⟩ := (same_pull h hcur b).exists_eq
    rw [hn] at hpulled
    rw [hn, hm]
    cases r with
    | error e => exact ⟨rfl, hread⟩
    | ok _ =>
      dsimp only
      rw [hread.progress_eq hpulled, hread.alike.isRoot_eq, Combination.combine_congr hread.alike]
      split
      · exact ⟨rfl, hread⟩
      · split <;> exact ⟨rfl, hread⟩
  · exact ⟨rfl, h⟩

theorem same_advance (h : n.ReadsAs m) (hcur : n.progress.cursor ≠ none) (b : BatchCursor) :
    Same (advance n b) (advance m b) := by
  rw [advance, advance]
  split
  · have hpulled : (pull n b).2.progress.cursor ≠ none := Option.some_ne_none _
    obtain ⟨r, n', m', hn, hm, hread⟩ := (same_pull h hcur b).exists_eq
    rw [hn] at hpulled
    rw [hn, hm]
    cases r with
    | error e => exact ⟨rfl, hread⟩
    | ok _ => exact ⟨rfl, hread.resetChildren hpulled⟩
  · exact ⟨rfl, h.alike.readsAs_reset⟩

/-! ## Walks -/

/-- A way of fetching that comes to the same from states from which the same can be read. -/
def Steady (fetch : Node → Except Failure Outcome × Node) : Prop :=
  ∀ n m : Node, n.ReadsAs m → Same (fetch n) (fetch m)

/-- A turn reads the node that it is made at, which has a cursor, and the child. -/
theorem same_turn (hfetch : Steady fetch) (h : n.ReadsAs m) (hcur : n.progress.cursor ≠ none)
    (hk : k.ReadsAs l) (i : Nat) : Same (f.turn fetch n i k) (f.turn fetch m i l) := by
  have hvalues : valuesFor n i k = valuesFor m i l :=
    valuesFor_congr h.alike.plan_eq (congrArg Progress.results (h.progress_eq hcur))
      (fun j _ => congrArg (·.childResults[j]?) (h.progress_eq hcur)) hk.alike.plan_eq
  rw [turn, turn, hk.joinedStatus_eq, hvalues]
  split
  · exact ⟨rfl, hk⟩
  · exact hfetch k l hk
  · split
    · exact ⟨rfl, hk⟩
    · rename_i values _
      obtain ⟨r, k', l', hopen, hopen', hread⟩ := (same_openCursor f (some values) hk).exists_eq
      rw [hopen, hopen']
      cases r with
      | error e => exact ⟨rfl, hread⟩
      | ok _ => exact hfetch k' l' hread

/-- **Two walks** take the same turns. -/
theorem same_walk (hfetch : Steady fetch) (h : n.ReadsAs m) (hcur : n.progress.cursor ≠ none)
    (steps i : Nat) : Same (f.walk fetch steps i n) (f.walk fetch steps i m) := by
  induction steps generalizing n m i with
  | zero => exact ⟨rfl, h⟩
  | succ steps ih =>
    rw [walk, walk]
    cases hk : n.children[i]? with
    | none =>
      have hl : m.children[i]? = none := by
        rw [List.getElem?_eq_none_iff] at hk ⊢
        exact h.alike.length_eq ▸ hk
      rw [hl]
      exact ⟨rfl, h⟩
    | some k =>
      obtain ⟨l, hl, hkl⟩ := h.exists_child hk
      rw [hl]
      dsimp only
      obtain ⟨r, k', l', hturn, hturn', hread⟩ := (same_turn (f := f) hfetch h hcur hkl i).exists_eq
      rw [hturn, hturn']
      have hset := h.setChild hread i
      have hretired := h.setChild hread.alike.readsAs_reset i
      rcases r with e | c | _ | _ | _
      · exact ⟨rfl, hset⟩
      · exact ih (hset.keepResults hcur i c) hcur (i + 1)
      · exact ⟨rfl, hset.keepBefore hcur i⟩
      · cases i with
        | zero => exact ⟨rfl, hretired.keepBefore hcur 0⟩
        | succ i => exact ih (hretired.keepBefore hcur (i + 1)) hcur i
      · exact ⟨rfl, hset⟩

/-- **Two fetches** come to the same where the same can be read, also where they fail. -/
theorem same_fetchWithin (f : Fetcher) (height : Nat) : Steady (f.fetchWithin height) := by
  induction height with
  | zero => exact fun n m h => ⟨rfl, h⟩
  | succ height ih =>
    intro n m h
    rw [fetchWithin, fetchWithin, ← h.cursor_eq, h.name_eq, h.alike.isLeaf_eq]
    rcases hb : n.progress.cursor with _ | b
    · exact ⟨rfl, h⟩
    · have hcur : n.progress.cursor ≠ none := hb ▸ Option.some_ne_none b
      have hstart : start n = start m := by rw [start, start, h.progress_eq hcur, h.alike.length_eq]
      dsimp only
      split
      · exact same_fetchLeaf f h hcur b
      · have hwalked := (cursor_walk f (f.fetchWithin height) n f.steps (start n)).trans_ne hcur
        obtain ⟨r, n', m', hn, hm, hread⟩ := (same_walk (f := f) ih h hcur f.steps (start n)).exists_eq
        rw [hn] at hwalked
        rw [← hstart, hn, hm]
        rcases r with e | _ | _ | _ | _
        · exact ⟨rfl, hread⟩
        · dsimp only
          rw [hread.progress_eq hwalked, Combination.combine_congr hread.alike]
          exact ⟨rfl, hread⟩
        · exact ⟨rfl, hread⟩
        · exact same_advance hread hwalked b
        · exact ⟨rfl, hread⟩

end Fetcher

namespace Graph

open Node

/-! ## Runs -/

/-- What some number of fetches come to, one after the other. -/
def outcomes : Nat → Graph → List (Except Failure Outcome)
  | 0, _ => []
  | k + 1, g => g.fetch.1 :: outcomes k g.fetch.2

/-- Two states of a graph from which the same can be read. -/
structure ReadsAs (g g' : Graph) : Prop where
  fetcher : g.fetcher = g'.fetcher
  root : g.root.ReadsAs g'.root

/-- A graph runs as another does: it is prepared as that one, and then every fetch comes to the same. -/
structure Replays (g g' : Graph) : Prop where
  prepared : g.prepareRoot.1 = g'.prepareRoot.1
  outcomes : ∀ k, g.prepareRoot.2.outcomes k = g'.prepareRoot.2.outcomes k
  run : g.run = g'.run

variable {g g' g₁ : Graph}

theorem ReadsAs.prepareRoot (h : g.ReadsAs g') :
    g.prepareRoot.1 = g'.prepareRoot.1 ∧ g.prepareRoot.2.ReadsAs g'.prepareRoot.2 := by
  have hsame := Fetcher.same_openCursor g'.fetcher none h.root
  rw [Graph.prepareRoot, Graph.prepareRoot, atRoot, atRoot, h.fetcher]
  exact ⟨hsame.outcome, ⟨rfl, hsame.readsAs⟩⟩

theorem ReadsAs.fetch (h : g.ReadsAs g') : g.fetch.1 = g'.fetch.1 ∧ g.fetch.2.ReadsAs g'.fetch.2 := by
  have hsame := Fetcher.same_fetchWithin g'.fetcher g'.root.height _ _ h.root
  rw [Graph.fetch, Graph.fetch, atRoot, atRoot, h.fetcher, Fetcher.fetch, Fetcher.fetch,
    h.root.alike.height_eq]
  exact ⟨hsame.outcome, ⟨rfl, hsame.readsAs⟩⟩

theorem ReadsAs.outcomes (h : g.ReadsAs g') (k : Nat) : g.outcomes k = g'.outcomes k := by
  induction k generalizing g g' with
  | zero => rfl
  | succ k ih =>
    obtain ⟨hout, hnext⟩ := h.fetch
    rw [Graph.outcomes, Graph.outcomes, hout, ih hnext]

theorem ReadsAs.drainWithin (h : g.ReadsAs g') (fetches : Nat) :
    g.drainWithin fetches = g'.drainWithin fetches := by
  induction fetches generalizing g g' with
  | zero => rfl
  | succ fetches ih =>
    obtain ⟨hout, hnext⟩ := h.fetch
    rw [Graph.drainWithin, Graph.drainWithin]
    generalize g.fetch = p at hout hnext
    generalize g'.fetch = q at hout hnext
    obtain ⟨r, g₁⟩ := p
    obtain ⟨_, g₂⟩ := q
    cases hout
    rcases r with e | c | _ | _ | _
    · rfl
    · exact congrArg (·.push c) (ih hnext)
    · exact congrArg Run.poll (ih hnext)
    · rfl
    · rfl

theorem ReadsAs.run (h : g.ReadsAs g') : g.run = g'.run := by
  obtain ⟨hout, hnext⟩ := h.prepareRoot
  rw [Graph.run, Graph.run]
  generalize g.prepareRoot = p at hout hnext
  generalize g'.prepareRoot = q at hout hnext
  obtain ⟨r, g₁⟩ := p
  obtain ⟨_, g₂⟩ := q
  cases hout
  cases r with
  | error e => rfl
  | ok _ =>
    dsimp only
    rw [drain, drain, hnext.drainWithin, hnext.fetcher]

theorem ReadsAs.replays (h : g.ReadsAs g') : g.Replays g' :=
  ⟨h.prepareRoot.1, h.prepareRoot.2.outcomes, h.run⟩

/-- A graph whose root is idle after some calls is read as it was built. -/
theorem Called.readsAs_of_idle (hr : Called g g₁) (hb : g.Built) (hi : g₁.root.Idle) : g₁.ReadsAs g := by
  obtain ⟨hp, hf⟩ := hr.preserved (hb.idle.sized _)
  exact ⟨hf, hp.alike.readsAs_of_idle hi hb.idle⟩

/-- **Resetting makes a graph new**, whatever was called on it before and wherever calls failed: prepared
again it runs as it did when it was built, fetch by fetch. -/
theorem replays_of_reset (hb : g.Built) (hr : g.Called g₁) : g₁.reset.Replays g :=
  (hr.reset.readsAs_of_idle hb (idle_reset g₁.root)).replays

/-- Orders of which the second lacks its buyer, reset after the fetch that failed on it: prepared again, the
first order is given again before the fetch that fails. -/
theorem replays_of_reset_torn : ∃ (g g₁ : Graph) (c : Collection) (e : Failure), g.Built ∧ g.Called g₁ ∧
    g₁.fetch.1 = .error e ∧ g₁.fetch.2.reset.Replays g ∧
    g₁.fetch.2.reset.prepareRoot.2.outcomes 2 = [.ok (.batch c), .error e] := by
  obtain ⟨root, after, hq, htest⟩ := Shop.exists_root (Shop.catalog Shop.torn) "Orders" Shop.predicates []
    (fun root =>
      let g := (ofRoot (Shop.registry Shop.torn) .projection 1 root).prepareRoot.2
      (Shop.given? g.fetch.1).isSome && !g.fetch.2.fetch.1.isOk) (by decide +kernel)
  have hb : Built (ofRoot (Shop.registry Shop.torn) .projection 1 root) := .ofRoot (.ofConfig _ _) hq _ _ _
  generalize ofRoot (Shop.registry Shop.torn) .projection 1 root = g at hb htest
  have hcalled : g.Called g.prepareRoot.2.fetch.2 := .fetch (.prepareRoot .refl)
  have hreplays := replays_of_reset hb hcalled.fetch
  obtain ⟨hgiven, hfails⟩ := Bool.and_eq_true_iff.mp htest
  obtain ⟨c, hc⟩ := Option.isSome_iff_exists.mp hgiven
  rcases hf : g.prepareRoot.2.fetch.2.fetch.1 with e | o
  · refine ⟨g, _, c, e, hb, hcalled, hf, hreplays, (hreplays.outcomes 2).trans ?_⟩
    rw [outcomes, outcomes, outcomes, Shop.eq_batch_of_given? hc, hf]
  · rw [hf] at hfails
    obtain ⟨⟩ := hfails

end Graph

end PathQuery
