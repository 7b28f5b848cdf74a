import PathQuery.Graph.Fetch
import PathQuery.Proofs.Except

/-!
# Proofs/Graph/Steps — what each step of a fetch can come to

Opening a node, fetching from a leaf, going on to the next batch, a turn of a child, a walk and a fetch
each have a rule: what holds at each of its ends holds of the step, also where it fails.  Whatever is kept
by every step is proved by these rules, so no step is taken apart again.  For the steps that do not fail,
their ends are listed as well (`turn_cases`, `fetchLeaf_cases`, `advance_cases`, `fetchWithin_cases`).
-/

namespace PathQuery

/-! ## Nodes without a cursor -/

namespace Node

variable {n : Node}

theorem status_eq_unready : n.status = .unready ↔ n.progress.cursor = none := by
  rw [status]
  cases n.progress.cursor with
  | none => exact iff_of_true rfl rfl
  | some b =>
    dsimp only
    split <;> exact iff_of_false (by rintro ⟨⟩) (by rintro ⟨⟩)

/-- A complete node may count as ready for its children, but not as unready. -/
theorem joinedStatus_eq_unready : n.joinedStatus = .unready ↔ n.progress.cursor = none := by
  rw [joinedStatus, ← status_eq_unready]
  split
  · rename_i h
    exact iff_of_false (by rintro ⟨⟩) (by rw [h.1]; rintro ⟨⟩)
  · rfl

theorem cursor_ne_none_of_ready (h : n.joinedStatus = .ready) : n.progress.cursor ≠ none := fun hcur => by
  obtain ⟨⟩ := h.symm.trans (joinedStatus_eq_unready.mpr hcur)

end Node

namespace Fetcher

open Node

variable {f : Fetcher} {fetch : Node → Except Failure Outcome × Node} {values : Option (List Value)}
  {n n' child child' : Node} {i : Nat} {b : BatchCursor} {o : Outcome}

/-! ## Opening -/

/-- **The rule of opening.**  A node that has a cursor is refused; a leaf keeps the new cursor as it is, and
any other node takes its first batch, or keeps no cursor if that fails. -/
@[elab_as_elim]
theorem openCursor_rule {motive : Except Failure Unit × Node → Prop}
    (refused : n.status ≠ .unready → motive (.error (.state (.alreadyPrepared n.name)), n))
    (failed : ∀ e, n.status = .unready →
      f.registry.fetchBatches (requestFor n values) f.batchSize = .error e → motive (.error e, n))
    (leaf : ∀ b, n.status = .unready →
      f.registry.fetchBatches (requestFor n values) f.batchSize = .ok b → n.isLeaf = true →
      motive (.ok (), { n with progress := ⟨n.progress.results.purge, some b, []⟩ }))
    (broken : ∀ b e b' results, n.status = .unready →
      f.registry.fetchBatches (requestFor n values) f.batchSize = .ok b → n.isLeaf = false →
      b.nextBatch n.progress.results.purge = (.error e, b', results) →
      motive (.error e, { n with progress := ⟨results, none, []⟩ }))
    (pulled : ∀ b k b' results, n.status = .unready →
      f.registry.fetchBatches (requestFor n values) f.batchSize = .ok b → n.isLeaf = false →
      b.nextBatch n.progress.results.purge = (.ok k, b', results) →
      motive (.ok (), { n with progress := ⟨results, some b', []⟩ })) :
    motive (f.openCursor values n) := by
  rw [openCursor]
  split
  · exact refused ‹_›
  · have hs : n.status = .unready := not_not.mp ‹_›
    split
    · exact failed _ hs ‹_›
    · dsimp only
      split
      · exact leaf _ hs ‹_› ‹_›
      · have hl : n.isLeaf = false := Bool.eq_false_iff.mpr ‹_›
        split
        · exact broken _ _ _ _ hs ‹_› hl ‹_›
        · exact pulled _ _ _ _ hs ‹_› hl ‹_›

/-- A node with a cursor is not opened again. -/
theorem openCursor_of_ne_none (f : Fetcher) (values : Option (List Value)) (h : n.progress.cursor ≠ none) :
    f.openCursor values n = (.error (.state (.alreadyPrepared n.name)), n) := by
  rw [openCursor, if_pos (mt status_eq_unready.mp h)]

theorem cursor_eq_none_of_openCursor (h : f.openCursor values n = (.ok (), n')) :
    n.progress.cursor = none := by
  by_contra hcur
  rw [openCursor_of_ne_none f values hcur] at h
  obtain ⟨⟩ := h

/-! ## Leaves -/

/-- A leaf that is no root gives its rows as they are. -/
theorem combine_leaf (hr : n.isRoot = false) (c : Combination) (results : Collection) :
    c.combine n results [] = .ok results := by
  cases c with
  | expand => rfl
  | projection => simp [Combination.combine, hr]

/-- **The rule of leaves.**  A leaf pulls a batch, and gives it combined with nothing. -/
@[elab_as_elim]
theorem fetchLeaf_rule {motive : Except Failure Outcome × Node → Prop}
    (exhausted : b.hasMore = false → motive (.ok .exhausted, n))
    (failed : ∀ e m, b.hasMore = true → pull n b = (.error e, m) → motive (.error e, m))
    (pending : ∀ k m, b.hasMore = true → pull n b = (.ok k, m) → m.progress.results.isEmpty = true →
      motive (.ok .pending, m))
    (batch : ∀ k m, b.hasMore = true → pull n b = (.ok k, m) →
      motive ((f.combination.combine m m.progress.results []).map .batch, m)) :
    motive (f.fetchLeaf n b) := by
  rw [fetchLeaf]
  split
  · split
    · exact failed _ _ ‹_› ‹_›
    · rename_i k m hp
      have hgiven := batch k m ‹_› hp
      dsimp only
      split
      · exact pending k m ‹_› hp ‹_›
      · split
        · exact hgiven
        · rwa [combine_leaf (Bool.eq_false_iff.mpr ‹_›)] at hgiven
  · exact exhausted (Bool.eq_false_iff.mpr ‹_›)

/-- What a leaf that does not fail comes to. -/
theorem fetchLeaf_cases (h : f.fetchLeaf n b = (.ok o, n')) :
    (b.hasMore = false ∧ o = .exhausted ∧ n' = n) ∨
      (b.hasMore = true ∧ ∃ k, pull n b = (.ok k, n') ∧
        ((n'.progress.results.isEmpty = true ∧ o = .pending) ∨
          ∃ c, o = .batch c ∧ f.combination.combine n' n'.progress.results [] = .ok c)) := by
  revert h
  refine fetchLeaf_rule (fun hm h => ?_) (fun e m hm hp h => ?_) (fun k m hm hp he h => ?_)
    fun k m hm hp h => ?_
  · cases h
    exact .inl ⟨hm, rfl, rfl⟩
  · obtain ⟨⟩ := h
  · cases h
    exact .inr ⟨hm, k, hp, .inl ⟨he, rfl⟩⟩
  · obtain ⟨hcomb, rfl⟩ := Prod.mk.inj h
    obtain ⟨c, hc, rfl⟩ := map_eq_ok.mp hcomb
    exact .inr ⟨hm, k, hp, .inr ⟨c, rfl, hc⟩⟩

/-! ## Going on to the next batch -/

/-- **The rule of going on** after the first child: a node that can pull no more is reset, and otherwise its
children are. -/
@[elab_as_elim]
theorem advance_rule {motive : Except Failure Outcome × Node → Prop}
    (exhausted : b.hasMore = false → motive (.ok .exhausted, n.reset))
    (failed : ∀ e m, b.hasMore = true → pull n b = (.error e, m) → motive (.error e, m))
    (pulled : ∀ k m, b.hasMore = true → pull n b = (.ok k, m) → motive (.ok .pending, m.resetChildren)) :
    motive (advance n b) := by
  rw [advance]
  split
  · split
    · exact failed _ _ ‹_› ‹_›
    · exact pulled _ _ ‹_› ‹_›
  · exact exhausted (Bool.eq_false_iff.mpr ‹_›)

/-- What going on after the first child comes to, unless it fails. -/
theorem advance_cases (h : advance n b = (.ok o, n')) :
    (b.hasMore = false ∧ o = .exhausted ∧ n' = n.reset) ∨
      (b.hasMore = true ∧ o = .pending ∧ ∃ k m, pull n b = (.ok k, m) ∧ n' = m.resetChildren) := by
  revert h
  refine advance_rule (fun hm h => ?_) (fun e m hm hp h => ?_) fun k m hm hp h => ?_
  · cases h
    exact .inl ⟨hm, rfl, rfl⟩
  · obtain ⟨⟩ := h
  · cases h
    exact .inr ⟨hm, rfl, k, m, hp, rfl⟩

/-! ## Turns -/

/-- **The rule of turns.**  A child is fetched from as it is, or once it was opened for what it is asked
for; a complete child is not fetched from. -/
@[elab_as_elim]
theorem turn_rule {motive : Except Failure Outcome × Node → Prop}
    (complete : child.joinedStatus = .complete → motive (.ok .exhausted, child))
    (ready : child.joinedStatus = .ready → motive (fetch child))
    (unasked : ∀ e, child.joinedStatus = .unready → valuesFor n i child = .error e → motive (.error e, child))
    (unopened : ∀ vals e m, child.joinedStatus = .unready → valuesFor n i child = .ok vals →
      f.openCursor (some vals) child = (.error e, m) → motive (.error e, m))
    (opened : ∀ vals m, child.joinedStatus = .unready → valuesFor n i child = .ok vals →
      f.openCursor (some vals) child = (.ok (), m) → motive (fetch m)) :
    motive (f.turn fetch n i child) := by
  rw [turn]
  split
  · exact complete ‹_›
  · exact ready ‹_›
  · split
    · exact unasked _ ‹_› ‹_›
    · split
      · exact unopened _ _ _ ‹_› ‹_› ‹_›
      · exact opened _ _ ‹_› ‹_› ‹_›

/-- What a turn that does not fail comes to. -/
theorem turn_cases (h : f.turn fetch n i child = (.ok o, child')) :
    (child.joinedStatus = .complete ∧ o = .exhausted ∧ child' = child) ∨
      (child.joinedStatus = .ready ∧ fetch child = (.ok o, child')) ∨
      (child.joinedStatus = .unready ∧ ∃ vals opened, valuesFor n i child = .ok vals ∧
        f.openCursor (some vals) child = (.ok (), opened) ∧ fetch opened = (.ok o, child')) := by
  revert h
  refine turn_rule (fun hs h => ?_) (fun hs h => .inr (.inl ⟨hs, h⟩)) (fun e hs hv h => ?_)
    (fun vals e m hs hv hopen h => ?_) fun vals m hs hv hopen h => .inr (.inr ⟨hs, vals, m, hv, hopen, h⟩)
  · cases h
    exact .inl ⟨hs, rfl, rfl⟩
  · obtain ⟨⟩ := h
  · obtain ⟨⟩ := h

/-! ## Walks -/

/-- The node once the child at a position was replaced, and gave some results or none. -/
def after (n : Node) (i : Nat) (child : Node) (gave : Option Collection) : Node :=
  { n with
    progress := { n.progress with
      childResults := n.progress.childResults.take i ++ gave.toList }
    children := n.children.set i child }

theorem keepBefore_setChild (n : Node) (i : Nat) (child : Node) :
    (n.setChild i child).keepBefore i = after n i child none := by
  simp [setChild, keepBefore, after]

theorem keepResults_setChild (n : Node) (i : Nat) (child : Node) (c : Collection) :
    (n.setChild i child).keepResults i c = after n i child (some c) := rfl

/-- **The rule of walks**: `I` is kept by every turn that goes on, and gives `Q` at every end. -/
theorem walk_rule {I : Nat → Nat → Node → Prop} {Q : Except Failure WalkEnd → Node → Prop}
    (spent : ∀ i n, I 0 i n → Q (.ok .unfinished) n)
    (joined : ∀ s i n, I (s + 1) i n → n.children[i]? = none → Q (.ok .joined) n)
    (failed : ∀ s i n child e child', I (s + 1) i n → n.children[i]? = some child →
      f.turn fetch n i child = (.error e, child') → Q (.error e) (n.setChild i child'))
    (unfinished : ∀ s i n child child', I (s + 1) i n → n.children[i]? = some child →
      f.turn fetch n i child = (.ok .unfinished, child') → Q (.ok .unfinished) (n.setChild i child'))
    (pending : ∀ s i n child child', I (s + 1) i n → n.children[i]? = some child →
      f.turn fetch n i child = (.ok .pending, child') →
      Q (.ok .pending) (after n i child' none))
    (batch : ∀ s i n child child' c, I (s + 1) i n → n.children[i]? = some child →
      f.turn fetch n i child = (.ok (.batch c), child') →
      I s (i + 1) (after n i child' (some c)))
    (first : ∀ s n child child', I (s + 1) 0 n → n.children[0]? = some child →
      f.turn fetch n 0 child = (.ok .exhausted, child') →
      Q (.ok .exhausted) (after n 0 child'.reset none))
    (back : ∀ s i n child child', I (s + 1) (i + 1) n → n.children[i + 1]? = some child →
      f.turn fetch n (i + 1) child = (.ok .exhausted, child') →
      I s i (after n (i + 1) child'.reset none))
    {steps i : Nat} {n : Node} (h : I steps i n) :
    Q (f.walk fetch steps i n).1 (f.walk fetch steps i n).2 := by
  induction steps generalizing i n with
  | zero => exact spent i n h
  | succ s ih =>
    rw [walk]
    cases hc : n.children[i]? with
    | none => exact joined s i n h hc
    | some child =>
      simp only
      cases ht : f.turn fetch n i child with
      | mk r child' =>
        cases r with
        | error e => exact failed s i n child e child' h hc ht
        | ok o =>
          cases o with
          | batch c =>
            dsimp only
            rw [keepResults_setChild]
            exact ih (batch s i n child child' c h hc ht)
          | pending =>
            dsimp only
            rw [keepBefore_setChild]
            exact pending s i n child child' h hc ht
          | unfinished => exact unfinished s i n child child' h hc ht
          | exhausted =>
            dsimp only
            rw [keepBefore_setChild]
            cases i with
            | zero => exact first s n child child' h hc ht
            | succ i => exact ih (back s i n child child' h hc ht)

/-- A walk keeps the cursor of the node that it is made at. -/
theorem cursor_walk (f : Fetcher) (fetch : Node → Except Failure Outcome × Node) (n : Node) (steps i : Nat) :
    (f.walk fetch steps i n).2.progress.cursor = n.progress.cursor :=
  walk_rule (f := f) (I := fun _ _ m => m.progress.cursor = n.progress.cursor)
    (Q := fun _ m => m.progress.cursor = n.progress.cursor) (fun _ _ h => h) (fun _ _ _ h _ => h)
    (fun _ _ _ _ _ _ h _ _ => h) (fun _ _ _ _ _ h _ _ => h) (fun _ _ _ _ _ h _ _ => h)
    (fun _ _ _ _ _ _ h _ _ => h) (fun _ _ _ _ h _ _ => h) (fun _ _ _ _ _ h _ _ => h) rfl

/-! ## Fetches -/

variable {height : Nat}

theorem fetchWithin_leaf (hl : n.isLeaf = true) (hb : n.progress.cursor = some b)
    (f : Fetcher) (height : Nat) : f.fetchWithin (height + 1) n = f.fetchLeaf n b := by
  simp only [fetchWithin, hb, hl, if_true]

/-- **The rule of nodes with children.**  A node walks over its children, and combines what they gave or
goes on to its next batch. -/
@[elab_as_elim]
theorem fetchWithin_rule {motive : Except Failure Outcome × Node → Prop} (hl : n.isLeaf = false)
    (hb : n.progress.cursor = some b)
    (failed : ∀ e m, f.walk (f.fetchWithin height) f.steps (start n) n = (.error e, m) → motive (.error e, m))
    (unfinished : ∀ m, f.walk (f.fetchWithin height) f.steps (start n) n = (.ok .unfinished, m) →
      motive (.ok .unfinished, m))
    (pending : ∀ m, f.walk (f.fetchWithin height) f.steps (start n) n = (.ok .pending, m) →
      motive (.ok .pending, m))
    (exhausted : ∀ m, f.walk (f.fetchWithin height) f.steps (start n) n = (.ok .exhausted, m) →
      motive (advance m b))
    (joined : ∀ m, f.walk (f.fetchWithin height) f.steps (start n) n = (.ok .joined, m) →
      motive ((f.combination.combine m m.progress.results m.progress.childResults).map .batch, m)) :
    motive (f.fetchWithin (height + 1) n) := by
  simp only [fetchWithin, hb, hl, Bool.false_eq_true, if_false]
  split
  · exact failed _ _ ‹_›
  · exact unfinished _ ‹_›
  · exact pending _ ‹_›
  · exact exhausted _ ‹_›
  · exact joined _ ‹_›

/-- A node without a cursor is not fetched from. -/
theorem fetch_of_eq_none (f : Fetcher) (h : n.progress.cursor = none) :
    f.fetch n = (.error (.state (.notPrepared n.name)), n) := by
  rw [fetch, height_eq, fetchWithin, h]

theorem cursor_ne_none_of_fetch (h : f.fetch n = (.ok o, n')) : n.progress.cursor ≠ none := fun hcur => by
  rw [fetch_of_eq_none f hcur] at h
  obtain ⟨⟩ := h

/-- What a fetch comes to that goes over the children, unless it fails. -/
theorem fetchWithin_cases (hl : n.isLeaf = false) (hb : n.progress.cursor = some b)
    (h : f.fetchWithin (height + 1) n = (.ok o, n')) :
    ∃ e m, f.walk (f.fetchWithin height) f.steps (start n) n = (.ok e, m) ∧
      match e with
      | .joined => n' = m ∧
          ∃ c, o = .batch c ∧ f.combination.combine m m.progress.results m.progress.childResults = .ok c
      | .pending => n' = m ∧ o = .pending
      | .exhausted => advance m b = (.ok o, n')
      | .unfinished => n' = m ∧ o = .unfinished := by
  revert h
  refine fetchWithin_rule hl hb (fun e m _ h => ?_) (fun m hw h => ?_) (fun m hw h => ?_)
    (fun m hw h => ⟨_, m, hw, h⟩) fun m hw h => ?_
  · obtain ⟨⟩ := h
  · cases h
    exact ⟨_, _, hw, rfl, rfl⟩
  · cases h
    exact ⟨_, _, hw, rfl, rfl⟩
  · obtain ⟨hcomb, rfl⟩ := Prod.mk.inj h
    obtain ⟨c, hc, rfl⟩ := map_eq_ok.mp hcomb
    exact ⟨_, _, hw, rfl, c, rfl, hc⟩

end Fetcher

end PathQuery
