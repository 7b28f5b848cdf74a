import PathQuery.Proofs.Graph.Protocol

/-!
# Proofs/Graph/Preserved — what no call changes

Whatever is called on a graph, and whichever calls fail, its tree stays the one that was built, and each
cursor reads batches of the size that the nodes share (`Graph.Called.preserved`).  Nothing is asked of the
tree for this: every step of a fetch keeps both where they hold (`preserved_fetchWithin`).
-/

namespace PathQuery

/-- A pull keeps the layout of the collection, also where it fails. -/
theorem BatchCursor.layout_pull (count moved : Nat) (b : BatchCursor) (c : Collection) :
    (pull count moved b c).2.2.layout = c.layout := by
  induction count generalizing moved b c with
  | zero => rfl
  | succ count ih =>
    rw [pull]
    rcases b.cursor.next with ⟨_ | _ | doc, cursor⟩
    · rfl
    · rfl
    · dsimp only
      refine (c.safe_add ⟨b.pulled, Entity.ofDocument doc⟩).elim (fun _ _ => rfl) fun added hadd => ?_
      exact (ih (moved + 1) { b with cursor, pulled := b.pulled + 1 } added.2).trans hadd

/-- A batch keeps the layout of the collection and the size of the cursor. -/
theorem BatchCursor.kept_nextBatch {b b' : BatchCursor} {c c' : Collection} {e : Except Failure Nat}
    (h : b.nextBatch c = (e, b', c')) : c'.layout = c.layout ∧ b'.batchSize = b.batchSize := by
  have hlayout := layout_pull b.batchSize 0 b c
  have hsize := (length_ahead_pull b.batchSize 0 b c).1
  rw [← nextBatch, h] at hlayout hsize
  exact ⟨hlayout, hsize⟩

namespace Node

variable {f : Fetcher} {n m : Node}

/-! ## Cursors of one size -/

/-- Each cursor of a tree reads batches of the size that the nodes share. -/
def Sized (f : Fetcher) (n : Node) : Prop :=
  ∀ m ∈ n.all, ∀ b, m.progress.cursor = some b → b.batchSize = max f.batchSize 1

theorem sized_iff : n.Sized f ↔
    (∀ b, n.progress.cursor = some b → b.batchSize = max f.batchSize 1) ∧
      ∀ child ∈ n.children, child.Sized f := forall_mem_all

theorem Sized.cursor (h : n.Sized f) {b : BatchCursor} (hb : n.progress.cursor = some b) :
    b.batchSize = max f.batchSize 1 := (sized_iff.mp h).1 b hb

theorem Sized.child (h : n.Sized f) {child : Node} (hc : child ∈ n.children) : child.Sized f :=
  (sized_iff.mp h).2 child hc

theorem Idle.sized (h : n.Idle) (f : Fetcher) : n.Sized f := by
  induction n using Node.induction with
  | node n ih =>
    refine sized_iff.mpr ⟨?_, fun child hc => ih child hc (h.child hc)⟩
    rw [h.cursor]
    rintro _ ⟨⟩

/-- What a step leaves of a node: the same tree, with cursors of one size. -/
structure Preserved (f : Fetcher) (n m : Node) : Prop where
  alike : m.Alike n
  sized : m.Sized f

theorem Sized.preserved (h : n.Sized f) : Preserved f n n := ⟨.refl n, h⟩

theorem Preserved.trans {k : Node} (h : Preserved f n m) (h' : Preserved f m k) : Preserved f n k :=
  ⟨h'.alike.trans h.alike, h'.sized⟩

theorem preserved_reset (f : Fetcher) (n : Node) : Preserved f n n.reset :=
  ⟨alike_reset n, (idle_reset n).sized f⟩

theorem Sized.resetChildren (h : n.Sized f) : Preserved f n n.resetChildren :=
  ⟨alike_resetChildren n, sized_iff.mpr ⟨fun _ hb => h.cursor hb,
    fun _ hc => (idle_resetChildren n _ hc).sized f⟩⟩

theorem Sized.setChild (h : n.Sized f) {i : Nat} {child child' : Node} (hc : n.children[i]? = some child)
    (hk : Preserved f child child') : Preserved f n (n.setChild i child') :=
  ⟨alike_setChild hc hk.alike, sized_iff.mpr ⟨fun _ hb => h.cursor hb,
    fun _ hm => (List.mem_or_eq_of_mem_set hm).elim h.child fun he => he ▸ hk.sized⟩⟩

/-- New progress on the same tree. -/
theorem Sized.update (h : n.Sized f) {progress : Node.Progress}
    (hl : progress.results.layout = n.progress.results.layout)
    (hb : ∀ b, progress.cursor = some b → b.batchSize = max f.batchSize 1) :
    Preserved f n { n with progress } :=
  ⟨alike_of_progress (Collection.purge_congr hl), sized_iff.mpr ⟨hb, fun _ => h.child⟩⟩

end Node

namespace Fetcher

open Node

variable {f : Fetcher} {fetch : Node → Except Failure Outcome × Node} {n m child : Node} {b : BatchCursor}

/-! ## Steps of a fetch -/

theorem preserved_openCursor (h : n.Sized f) (values : Option (List Value)) :
    Preserved f n (f.openCursor values n).2 := by
  have hpurged := Collection.layout_purge n.progress.results
  refine openCursor_rule (fun _ => ?_) (fun e _ _ => ?_) (fun b _ hb _ => ?_)
    (fun b e b' results _ _ _ hnext => ?_) fun b k b' results _ hb _ hnext => ?_
  · exact h.preserved
  · exact h.preserved
  · obtain ⟨-, -, hsize, -⟩ := gives_of_fetchBatches hb
    exact h.update hpurged fun _ hb => Option.some.inj hb ▸ hsize
  · exact h.update ((BatchCursor.kept_nextBatch hnext).1.trans hpurged) (by rintro _ ⟨⟩)
  · obtain ⟨-, -, hsize, -⟩ := gives_of_fetchBatches hb
    obtain ⟨hlayout, hkept⟩ := BatchCursor.kept_nextBatch hnext
    exact h.update (hlayout.trans hpurged) fun _ hb => Option.some.inj hb ▸ hkept.trans hsize

theorem preserved_pull {e : Except Failure Nat} (h : n.Sized f) (hb : n.progress.cursor = some b)
    (hp : pull n b = (e, m)) : Preserved f n m := by
  cases hp
  obtain ⟨hlayout, hkept⟩ := BatchCursor.kept_nextBatch (b := b) (c := n.progress.results.purge) rfl
  exact h.update (hlayout.trans (Collection.layout_purge _)) fun _ hb' =>
    Option.some.inj hb' ▸ hkept.trans (h.cursor hb)

theorem preserved_fetchLeaf (h : n.Sized f) (hb : n.progress.cursor = some b) :
    Preserved f n (f.fetchLeaf n b).2 := by
  exact fetchLeaf_rule (fun _ => h.preserved) (fun _ _ _ hp => preserved_pull h hb hp)
    (fun _ _ _ hp _ => preserved_pull h hb hp) fun _ _ _ hp => preserved_pull h hb hp

theorem preserved_advance (h : n.Sized f) (hb : n.progress.cursor = some b) :
    Preserved f n (advance n b).2 := by
  refine advance_rule (fun _ => preserved_reset f n) (fun _ _ _ hp => preserved_pull h hb hp)
    fun _ _ _ hp => ?_
  have hpull := preserved_pull h hb hp
  exact hpull.trans hpull.sized.resetChildren

/-- A way of fetching that keeps trees and the sizes of their cursors. -/
def Preserves (f : Fetcher) (fetch : Node → Except Failure Outcome × Node) : Prop :=
  ∀ n : Node, n.Sized f → Preserved f n (fetch n).2

theorem preserved_turn (hfetch : Preserves f fetch) (h : child.Sized f) (n : Node) (i : Nat) :
    Preserved f child (f.turn fetch n i child).2 := by
  have hopened : ∀ {vals e m}, f.openCursor (some vals) child = (e, m) → Preserved f child m :=
    fun {vals e m} hopen => by
      have := preserved_openCursor h (some vals)
      rwa [hopen] at this
  exact turn_rule (fun _ => h.preserved) (fun _ => hfetch child h) (fun _ _ _ => h.preserved)
    (fun _ _ _ _ _ hopen => hopened hopen) fun _ m _ _ hopen =>
      (hopened hopen).trans (hfetch m (hopened hopen).sized)

/-- A replaced child, with whatever it gave, keeps the tree. -/
theorem preserved_after {child' : Node} {i : Nat} (h : n.Sized f) (hc : n.children[i]? = some child)
    (hk : Preserved f child child') (gave : Option Collection) : Preserved f n (after n i child' gave) :=
  (h.setChild hc hk).trans ((h.setChild hc hk).sized.update rfl fun _ => h.cursor)

/-- **A walk** keeps the tree. -/
theorem preserved_walk (hfetch : Preserves f fetch) (h : n.Sized f) (steps i : Nat) :
    Preserved f n (f.walk fetch steps i n).2 := by
  have hturn : ∀ {m k k' : Node} {j : Nat} {r : Except Failure Outcome}, Preserved f n m →
      m.children[j]? = some k → f.turn fetch m j k = (r, k') → Preserved f k k' := fun {m _ _ j _} hm hk ht => by
    have := preserved_turn (f := f) hfetch (hm.sized.child (List.mem_of_getElem? hk)) m j
    rwa [ht] at this
  refine walk_rule (f := f) (I := fun _ _ m => Preserved f n m) (Q := fun _ m => Preserved f n m)
    ?_ ?_ ?_ ?_ ?_ ?_ ?_ ?_ h.preserved
  · exact fun _ _ h => h
  · exact fun _ _ _ h _ => h
  · exact fun _ _ _ _ _ _ h hk ht => h.trans (h.sized.setChild hk (hturn h hk ht))
  · exact fun _ _ _ _ _ h hk ht => h.trans (h.sized.setChild hk (hturn h hk ht))
  · exact fun _ _ _ _ _ h hk ht => h.trans (preserved_after h.sized hk (hturn h hk ht) _)
  · exact fun _ _ _ _ _ _ h hk ht => h.trans (preserved_after h.sized hk (hturn h hk ht) _)
  · exact fun _ _ _ k' h hk ht =>
      h.trans (preserved_after h.sized hk ((hturn h hk ht).trans (preserved_reset f k')) _)
  · exact fun _ _ _ _ k' h hk ht =>
      h.trans (preserved_after h.sized hk ((hturn h hk ht).trans (preserved_reset f k')) _)

/-- **A fetch** keeps the tree, whatever it comes to. -/
theorem preserved_fetchWithin (f : Fetcher) (height : Nat) : Preserves f (f.fetchWithin height) := by
  induction height with
  | zero => exact fun n h => h.preserved
  | succ height ih =>
    intro n h
    rcases hb : n.progress.cursor with _ | b
    · rw [fetchWithin, hb]
      exact h.preserved
    · rcases hl : n.isLeaf with _ | _
      · have hwalked : ∀ {e m}, f.walk (f.fetchWithin height) f.steps (start n) n = (e, m) →
            Preserved f n m ∧ m.progress.cursor = n.progress.cursor := fun hw => by
          have hwalk := preserved_walk ih h f.steps (start n)
          have hcursor := cursor_walk f (f.fetchWithin height) n f.steps (start n)
          rw [hw] at hwalk hcursor
          exact ⟨hwalk, hcursor⟩
        refine fetchWithin_rule hl hb (fun _ _ hw => (hwalked hw).1) (fun _ hw => (hwalked hw).1)
          (fun _ hw => (hwalked hw).1) (fun m hw => ?_) fun _ hw => (hwalked hw).1
        obtain ⟨hwalk, hcursor⟩ := hwalked hw
        exact hwalk.trans (preserved_advance hwalk.sized (hcursor.trans hb))
      · rw [fetchWithin_leaf hl hb]
        exact preserved_fetchLeaf h hb

end Fetcher

namespace Graph

open Node

variable {g g₁ : Graph}

/-- **Whatever is called**, the tree stays, with cursors of one size. -/
theorem Called.preserved (h : Called g g₁) (hs : g.root.Sized g.fetcher) :
    Preserved g.fetcher g.root g₁.root ∧ g₁.fetcher = g.fetcher := by
  induction h with
  | refl => exact ⟨hs.preserved, rfl⟩
  | @prepareRoot g₁ _ ih =>
    obtain ⟨hp, hf⟩ := ih
    exact ⟨hp.trans (hf ▸ Fetcher.preserved_openCursor (hf ▸ hp.sized) none), hf⟩
  | @fetch g₁ _ ih =>
    obtain ⟨hp, hf⟩ := ih
    exact ⟨hp.trans (hf ▸ Fetcher.preserved_fetchWithin g₁.fetcher _ _ (hf ▸ hp.sized)), hf⟩
  | reset _ ih => exact ⟨ih.1.trans (preserved_reset _ _), ih.2⟩

end Graph

end PathQuery
