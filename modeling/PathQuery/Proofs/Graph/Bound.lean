import PathQuery.Proofs.Graph.Left

/-!
# Proofs/Graph/Bound — fetching ends

Every fetch that gives something, or nothing for now, takes from what is left (`ends_fetchWithin`), and so
does every turn of a walk; the steps that a walk is allowed are enough for it.  This holds of every bounded
node, and calls keep nodes bounded, also those that fail.
-/

namespace PathQuery.Fetcher

open Node

variable {f : Fetcher} {fetch : Node → Except Failure Outcome × Node}
  {n m child child' : Node} {i height : Nat} {o : Outcome} {r : Registry} {b : BatchCursor}

/-! ## Opening and pulling -/

/-- A new cursor has no more documents ahead than its resource has. -/
theorem bounded_fetchBatches (h : f.registry.fetchBatches (requestFor n values) f.batchSize = .ok b) :
    0 < b.batchSize ∧ b.cursor.ahead.length ≤ supply f.registry n.plan.request := by
  obtain ⟨docs, hdocs, hsize, hg⟩ := gives_of_fetchBatches h
  refine ⟨by omega, ?_⟩
  simp only [hg.ahead_eq, supply, hdocs]
  exact List.length_filter_le _ _

/-- A node whose cursor comes from a new one by pulling is bounded. -/
theorem bounded_of_fetchBatches {results : Collection} {b' : BatchCursor} (hb : Bounded f.registry n)
    (h : f.registry.fetchBatches (requestFor n values) f.batchSize = .ok b)
    (hs : b'.batchSize = b.batchSize) (hl : b'.cursor.ahead.length ≤ b.cursor.ahead.length) :
    Bounded f.registry { n with progress := ⟨results, some b', []⟩ } := by
  obtain ⟨hpos, hle⟩ := bounded_fetchBatches h
  refine .node (fun b hb => ?_) fun child hc => hb.of_mem hc
  cases hb
  exact ⟨hs ▸ hpos, hl.trans hle⟩

/-- Opening a node keeps its bounds, also where it fails. -/
theorem bounded_openCursor (values : Option (List Value)) (hb : Bounded f.registry n) :
    Level f.registry (f.openCursor values n).2 n ∧ Bounded f.registry (f.openCursor values n).2 ∧
      ((f.openCursor values n).1 = .ok () → (f.openCursor values n).2.progress.cursor ≠ none) := by
  refine openCursor_rule (fun _ => ?_) (fun e _ _ => ?_) (fun b _ hfetch _ => ?_)
    (fun b e b' results _ hfetch _ hnext => ?_) fun b k b' results _ hfetch _ hnext => ?_
  · exact ⟨.refl _ n, hb, by rintro ⟨⟩⟩
  · exact ⟨.refl _ n, hb, by rintro ⟨⟩⟩
  · exact ⟨⟨rfl, rfl, rfl⟩, bounded_of_fetchBatches hb hfetch rfl (Nat.le_refl _), by rintro _ ⟨⟩⟩
  · exact ⟨⟨rfl, rfl, rfl⟩, .node (by rintro _ ⟨⟩) fun child hc => hb.of_mem hc, by rintro ⟨⟩⟩
  · have hpull := BatchCursor.length_ahead_pull b.batchSize 0 b n.progress.results.purge
    rw [← BatchCursor.nextBatch, hnext] at hpull
    exact ⟨⟨rfl, rfl, rfl⟩, bounded_of_fetchBatches hb hfetch hpull.1 hpull.2.1, by rintro _ ⟨⟩⟩

/-- Pulling keeps the bounds of a node and takes from what it has yet to pull, also where it fails. -/
theorem bounded_pull {e : Except Failure Nat} (hb : Bounded r n) (hcur : n.progress.cursor = some b)
    (hm : b.hasMore = true) (hp : pull n b = (e, m)) :
    Level r m n ∧ Bounded r m ∧ m.progress.cursor ≠ none ∧ m.unread < n.unread := by
  cases hp
  obtain ⟨hsize, hle, hlt⟩ := BatchCursor.length_ahead_pull b.batchSize 0 b n.progress.results.purge
  obtain ⟨hpos, hsupply⟩ := hb.own hcur
  refine ⟨⟨rfl, rfl, rfl⟩, .node (fun b' h => ?_) fun child hc => hb.of_mem hc, by rintro ⟨⟩, ?_⟩
  · cases h
    exact ⟨hsize.symm ▸ hpos, hle.trans hsupply⟩
  · rw [Node.unread, Node.unread, hcur]
    exact hlt hpos hm

/-! ## What a call takes -/

/-- What a fetch comes to: the bounds stay, it is not cut short, and unless the node is exhausted or the
fetch fails, it takes from what is left. -/
structure Spent (r : Registry) (n : Node) (p : Except Failure Outcome × Node) : Prop where
  level : Level r p.2 n
  bounded : Bounded r p.2
  finished : p.1 ≠ .ok .unfinished
  less : ∀ o, p.1 = .ok o → o ≠ .exhausted → p.2.progress.cursor ≠ none ∧ left r p.2 < left r n

/-- A fetch that changes nothing and is exhausted or fails. -/
theorem spent_self (hb : Bounded r n) {e : Except Failure Outcome}
    (h : ∀ o, e = .ok o → o = .exhausted) : Spent r n (e, n) where
  level := .refl r n
  bounded := hb
  finished he := nomatch h _ he
  less o ho hne := absurd (h o ho) hne

/-- A way of fetching that takes from what is left of a node until it is exhausted. -/
def Ends (f : Fetcher) (height : Nat) (fetch : Node → Except Failure Outcome × Node) : Prop :=
  ∀ n, Bounded f.registry n → n.height ≤ height → turns f.registry n ≤ f.steps →
    Spent f.registry n (fetch n)

/-- What a turn comes to. -/
structure TurnSpent (r : Registry) (child : Node) (p : Except Failure Outcome × Node) : Prop where
  level : Level r p.2 child
  bounded : Bounded r p.2
  finished : p.1 ≠ .ok .unfinished
  less : ∀ o, p.1 = .ok o → o ≠ .exhausted → budget r p.2 < budget r child

/-- A fetch from a child, or from what it was opened to, is a turn. -/
theorem Spent.turn {opened : Node} {p : Except Failure Outcome × Node} (h : Spent r opened p)
    (hl : Level r opened child) (hb : left r opened ≤ budget r child) : TurnSpent r child p where
  level := h.level.trans hl
  bounded := h.bounded
  finished := h.finished
  less o ho hne := by
    obtain ⟨hcur, hlt⟩ := h.less o ho hne
    rw [budget_of_ne_none hcur]
    exact Nat.lt_of_lt_of_le hlt hb

theorem turnSpent_self (hb : Bounded r child) {e : Except Failure Outcome}
    (h : ∀ o, e = .ok o → o = .exhausted) : TurnSpent r child (e, child) where
  level := .refl r child
  bounded := hb
  finished he := nomatch h _ he
  less o ho hne := absurd (h o ho) hne

/-- **A turn takes from the budget of its child**, unless the child is exhausted or the turn fails. -/
theorem turnSpent_turn (hends : Ends f height fetch) (n : Node) (i : Nat) (hb : Bounded f.registry child)
    (hh : child.height ≤ height) (ht : turns f.registry child ≤ f.steps) :
    TurnSpent f.registry child (f.turn fetch n i child) := by
  refine turn_rule (fun _ => ?_) (fun hs => ?_) (fun e _ _ => ?_) (fun vals e m _ _ hopen => ?_)
    fun vals m hs _ hopen => ?_
  · exact turnSpent_self hb fun o ho => by cases ho; rfl
  · refine (hends child hb hh ht).turn (.refl _ child) ?_
    rw [budget_of_ne_none (cursor_ne_none_of_ready hs)]
  · exact turnSpent_self hb (by rintro _ ⟨⟩)
  · obtain ⟨hl, hbo, -⟩ := bounded_openCursor (some vals) hb
    rw [hopen] at hl hbo
    exact ⟨hl, hbo, by rintro ⟨⟩, by rintro _ ⟨⟩⟩
  · obtain ⟨hl, hbo, -⟩ := bounded_openCursor (some vals) hb
    rw [hopen] at hl hbo
    refine (hends m hbo (hl.height_eq ▸ hh) (hl.turns_eq ▸ ht)).turn hl ?_
    rw [budget_of_none (joinedStatus_eq_unready.mp hs), ← hl.turns_eq]
    exact hbo.left_le

/-! ## Walks take from what is left -/

variable {gave : Option Collection}

theorem level_after (hc : n.children[i]? = some child) (h : Level r child' child) :
    Level r (after n i child' gave) n :=
  ⟨rfl, (level_setChild hc h).turns_children, (level_setChild hc h).height_children⟩

theorem bounded_after (hb : Bounded r n) (hc : Bounded r child') : Bounded r (after n i child' gave) :=
  (hb.setChild (i := i) hc).congr rfl rfl rfl

theorem steps_drop_after (hc : n.children[i]? = some child) (h : Level r child' child) (count : Nat) :
    Node.steps r ((after n i child' gave).children.drop count) =
      Node.steps r (n.children.drop count) := by
  refine steps_congr ?_
  rw [List.map_drop, List.map_drop, (level_after hc h).turns_children]

/-- What is left behind a child that was replaced. -/
theorem leftOf_after (hc : n.children[i]? = some child) (h : Level r child' child) :
    leftOf r (i + 1) (after n i child' gave).children =
      leftOf r i n.children + (1 + budget r child' * (1 + Node.steps r (n.children.drop (i + 1)))) := by
  have hself : (after n i child' gave).children[i]? = some child' := getElem?_setChild_self hc child'
  rw [leftOf_succ hself, steps_drop_after hc h]
  refine congrArg (· + _) (leftOf_congr (level_after hc h).turns_children fun j hj => ?_)
  exact getElem?_setChild_of_ne (Nat.ne_of_gt hj) n child'

theorem leftOf_pending (gave : Option Collection) (hc : n.children[i]? = some child)
    (h : Level r child' child) (hlt : budget r child' < budget r child) :
    leftOf r (i + 1) (after n i child' gave).children < leftOf r (i + 1) n.children := by
  rw [leftOf_after hc h, leftOf_succ hc]
  have hB := steps_pos r (n.children.drop (i + 1))
  nlinarith

theorem leftOf_batch (gave : Option Collection) (hb : Bounded r n) (hc : n.children[i]? = some child)
    (h : Level r child' child) (hlt : budget r child' < budget r child) :
    leftOf r (i + 1 + 1) (after n i child' gave).children < leftOf r (i + 1) n.children := by
  have hnext := leftOf_succ_le (r := r) (after n i child' gave).children (i + 1) fun k hk => by
    rw [after, List.getElem?_set_ne (Nat.ne_of_lt (Nat.lt_succ_self i))] at hk
    exact hb.of_mem (List.mem_of_getElem? hk)
  rw [leftOf_after hc h, steps_drop_after hc h] at hnext
  rw [leftOf_succ hc]
  have hB := steps_pos r (n.children.drop (i + 1))
  nlinarith

theorem leftOf_back (gave : Option Collection) (hc : n.children[i + 1]? = some child)
    (h : Level r child' child) :
    leftOf r (i + 1) (after n (i + 1) child' gave).children < leftOf r (i + 1 + 1) n.children := by
  have hcongr : leftOf r (i + 1) (after n (i + 1) child' gave).children =
      leftOf r (i + 1) n.children :=
    leftOf_congr (level_after hc h).turns_children fun j hj =>
      getElem?_setChild_of_ne (Nat.ne_of_gt hj) n child'
  rw [hcongr, leftOf_succ hc]
  omega

theorem start_after_le (n : Node) (i : Nat) (child : Node) : start (after n i child none) ≤ i := by
  rw [start, after]
  simp only [Option.toList_none, List.append_nil, List.length_take]
  omega

/-- A walk that started at `n` and stands at a child of `m` has steps for what is left, and this is less
than at the start, unless no turn was taken. -/
structure Spends (f : Fetcher) (n : Node) (steps i : Nat) (m : Node) : Prop where
  level : Level f.registry m n
  bounded : Bounded f.registry m
  cursor_eq : m.progress.cursor = n.progress.cursor
  covered : leftOf f.registry (i + 1) m.children < steps
  less : leftOf f.registry (i + 1) m.children < leftOf f.registry (start n + 1) n.children ∨
    i < n.children.length ∧
      leftOf f.registry (i + 1) m.children = leftOf f.registry (start n + 1) n.children

/-- What a walk comes to. -/
structure WalkSpent (f : Fetcher) (n : Node) (e : Except Failure WalkEnd) (m : Node) : Prop where
  level : Level f.registry m n
  bounded : Bounded f.registry m
  cursor_eq : m.progress.cursor = n.progress.cursor
  finished : e ≠ .ok .unfinished
  less : e = .ok .joined ∨ e = .ok .pending →
    leftOf f.registry (start m + 1) m.children < leftOf f.registry (start n + 1) n.children

section Walks

variable {s : Nat}

theorem Spends.le (h : Spends f n s i m) :
    leftOf f.registry (i + 1) m.children ≤ leftOf f.registry (start n + 1) n.children :=
  h.less.elim Nat.le_of_lt fun h => Nat.le_of_eq h.2

theorem Spends.pos (h : Spends f n s i m) : 0 < s := Nat.lt_of_le_of_lt (Nat.zero_le _) h.covered

/-- Behind all children a turn was taken. -/
theorem Spends.joined (h : Spends f n s i m) (hl : n.isLeaf = false) (hnone : m.children[i]? = none) :
    leftOf f.registry (start m + 1) m.children < leftOf f.registry (start n + 1) n.children := by
  have hi := List.getElem?_eq_none_iff.mp hnone
  have hlen := h.level.length_eq
  have hpos := length_children_pos hl
  have hlt := h.less.resolve_right fun hless => by omega
  refine Nat.lt_of_le_of_lt (leftOf_mono _ _ ?_) hlt
  rw [start]
  omega

variable (hends : Ends f height fetch) (hh : n.height ≤ height + 1) (hb : turns f.registry n ≤ f.steps)
include hends hh hb

theorem Spends.turn (h : Spends f n s i m) (hc : m.children[i]? = some child) :
    TurnSpent f.registry child (f.turn fetch m i child) := by
  have hmem := List.mem_of_getElem? hc
  have hlt := height_lt_of_mem hmem
  rw [h.level.height_eq] at hlt
  exact turnSpent_turn hends m i (h.bounded.of_mem hmem) (by omega)
    ((turns_child_le hmem).trans (h.level.turns_eq ▸ hb))

theorem Spends.batch {c : Collection} (h : Spends f n (s + 1) i m) (hc : m.children[i]? = some child)
    (ht : f.turn fetch m i child = (.ok (.batch c), child')) :
    Spends f n s (i + 1) (after m i child' (some c)) := by
  have hturn := h.turn hends hh hb hc
  rw [ht] at hturn
  have hless := leftOf_batch (some c) h.bounded hc hturn.level (hturn.less _ rfl (by rintro ⟨⟩))
  exact ⟨(level_after hc hturn.level).trans h.level, bounded_after h.bounded hturn.bounded, h.cursor_eq,
    Nat.lt_of_lt_of_le hless (Nat.le_of_lt_succ h.covered), .inl (Nat.lt_of_lt_of_le hless h.le)⟩

theorem Spends.back (h : Spends f n (s + 1) (i + 1) m) (hc : m.children[i + 1]? = some child)
    (ht : f.turn fetch m (i + 1) child = (.ok .exhausted, child')) :
    Spends f n s i (after m (i + 1) child'.reset none) := by
  have hturn := h.turn hends hh hb hc
  rw [ht] at hturn
  have hlevel := ((alike_reset child').level f.registry).trans hturn.level
  have hless := leftOf_back none hc hlevel
  exact ⟨(level_after hc hlevel).trans h.level,
    bounded_after h.bounded ((idle_reset child').bounded _), h.cursor_eq,
    Nat.lt_of_lt_of_le hless (Nat.le_of_lt_succ h.covered), .inl (Nat.lt_of_lt_of_le hless h.le)⟩

/-- **A walk takes from what is left for the children**, and its steps are enough. -/
theorem spent_walk (hl : n.isLeaf = false) (hbn : Bounded f.registry n) {steps : Nat}
    (hs : leftOf f.registry (start n + 1) n.children < steps) :
    WalkSpent f n (f.walk fetch steps (start n) n).1 (f.walk fetch steps (start n) n).2 := by
  refine walk_rule (I := Spends f n) ?_ ?_ ?_ ?_ ?_ ?_ ?_ ?_
    ⟨.refl _ n, hbn, rfl, hs, .inr ⟨start_lt hl, rfl⟩⟩
  · intro j m h
    exact absurd h.pos (Nat.lt_irrefl 0)
  · intro s j m h hnone
    exact ⟨h.level, h.bounded, h.cursor_eq, by rintro ⟨⟩, fun _ => h.joined hl hnone⟩
  · intro s j m k e k' h hk ht
    have hturn := h.turn hends hh hb hk
    rw [ht] at hturn
    exact ⟨(level_setChild hk hturn.level).trans h.level, h.bounded.setChild hturn.bounded, h.cursor_eq,
      by rintro ⟨⟩, fun he => he.elim (by rintro ⟨⟩) (by rintro ⟨⟩)⟩
  · intro s j m k k' h hk ht
    have hturn := h.turn hends hh hb hk
    rw [ht] at hturn
    exact absurd rfl hturn.finished
  · intro s j m k k' h hk ht
    have hturn := h.turn hends hh hb hk
    rw [ht] at hturn
    refine ⟨(level_after hk hturn.level).trans h.level, bounded_after h.bounded hturn.bounded,
      h.cursor_eq, by rintro ⟨⟩, fun _ => ?_⟩
    have hless := leftOf_pending none hk hturn.level (hturn.less _ rfl (by rintro ⟨⟩))
    have hstart := leftOf_mono f.registry (after m j k' none).children
      (Nat.succ_le_succ (start_after_le m j k'))
    exact Nat.lt_of_le_of_lt hstart (Nat.lt_of_lt_of_le hless h.le)
  · intro s j m k k' c h hk ht
    exact h.batch hends hh hb hk ht
  · intro s m k k' h hk ht
    have hturn := h.turn hends hh hb hk
    rw [ht] at hturn
    have hlevel := ((alike_reset k').level f.registry).trans hturn.level
    exact ⟨(level_after hk hlevel).trans h.level,
      bounded_after h.bounded ((idle_reset k').bounded _), h.cursor_eq, by rintro ⟨⟩,
      fun he => he.elim (by rintro ⟨⟩) (by rintro ⟨⟩)⟩
  · intro s j m k k' h hk ht
    exact h.back hends hh hb hk ht

end Walks

/-! ## Fetches take from what is left -/

/-- Combined results are not what is left unfinished. -/
theorem map_batch_ne_unfinished (combined : Except Failure Collection) :
    combined.map Outcome.batch ≠ .ok .unfinished := fun h => by
  obtain ⟨c, -, h⟩ := map_eq_ok.mp h
  obtain ⟨⟩ := h

/-- A walk that ends with results or for now takes from what is left of its node. -/
theorem WalkSpent.spent {e : Except Failure WalkEnd} {p : Except Failure Outcome} (h : WalkSpent f n e m)
    (hcur : n.progress.cursor = some b) (he : e = .ok .joined ∨ e = .ok .pending)
    (hp : p ≠ .ok .unfinished) : Spent f.registry n (p, m) where
  level := h.level
  bounded := h.bounded
  finished := hp
  less _ _ _ := by
    have hlt := h.less he
    refine ⟨h.cursor_eq ▸ hcur ▸ Option.some_ne_none b, ?_⟩
    dsimp only
    rw [left_eq, left_eq, unread, unread, h.cursor_eq, h.level.steps_eq]
    omega

theorem spent_fetchLeaf (hb : Bounded r n) (hl : n.isLeaf = true) (hcur : n.progress.cursor = some b) :
    Spent r n (f.fetchLeaf n b) := by
  have hless : ∀ {m : Node}, Level r m n → m.unread < n.unread → left r m < left r n := fun hlevel hlt => by
    rw [left_of_isLeaf hl, left_of_isLeaf (hlevel.isLeaf_eq.trans hl)]
    exact hlt
  refine fetchLeaf_rule (fun _ => ?_) (fun e m hm hp => ?_) (fun k m hm hp _ => ?_) fun k m hm hp => ?_
  · exact spent_self hb fun o ho => by cases ho; rfl
  · obtain ⟨hlevel, hbp, -, -⟩ := bounded_pull hb hcur hm hp
    exact ⟨hlevel, hbp, by rintro ⟨⟩, by rintro _ ⟨⟩⟩
  · obtain ⟨hlevel, hbp, hne, hlt⟩ := bounded_pull hb hcur hm hp
    exact ⟨hlevel, hbp, by rintro ⟨⟩, fun _ _ _ => ⟨hne, hless hlevel hlt⟩⟩
  · obtain ⟨hlevel, hbp, hne, hlt⟩ := bounded_pull hb hcur hm hp
    exact ⟨hlevel, hbp, map_batch_ne_unfinished _, fun _ _ _ => ⟨hne, hless hlevel hlt⟩⟩

/-- Going on to the next batch takes a document, and the walks that it can bring about. -/
theorem spent_advance (hb : Bounded r m) (hcur : m.progress.cursor = some b) (hl : Level r m n)
    (hle : m.unread * Node.steps r m.children ≤ left r n) : Spent r n (advance m b) := by
  refine advance_rule (fun _ => ?_) (fun e k hm hp => ?_) fun moved k hm hp => ?_
  · exact ⟨((alike_reset m).level r).trans hl, (idle_reset m).bounded r, by rintro ⟨⟩,
      fun o ho hne => absurd (Except.ok.inj ho).symm hne⟩
  · obtain ⟨hlevel, hbp, -, -⟩ := bounded_pull hb hcur hm hp
    exact ⟨hlevel.trans hl, hbp, by rintro ⟨⟩, by rintro _ ⟨⟩⟩
  · obtain ⟨hlevel, hbp, hne, hlt⟩ := bounded_pull hb hcur hm hp
    have hreset := ((alike_resetChildren k).level r).trans hlevel
    have hidle : ∀ child ∈ k.resetChildren.children, Bounded r child := fun child hc =>
      (idle_resetChildren k child hc).bounded r
    refine ⟨hreset.trans hl, .node (fun _ h => hbp.own h) hidle, by rintro ⟨⟩,
      fun _ _ _ => ⟨hne, Nat.lt_of_lt_of_le ?_ hle⟩⟩
    have hfirst := leftOf_succ_le (r := r) k.resetChildren.children 0
      fun child hc => hidle child (List.mem_of_getElem? hc)
    have hstart : start k.resetChildren = 0 := by rw [start, resetChildren]; simp
    have hunread : k.resetChildren.unread = k.unread := rfl
    rw [List.drop_zero, leftOf_zero, hreset.steps_eq] at hfirst
    rw [left_eq, hstart, hreset.steps_eq, hunread]
    nlinarith

/-- **Every fetch takes from what is left**, until the node is exhausted or the fetch fails. -/
theorem ends_fetchWithin (f : Fetcher) (height : Nat) : Ends f height (f.fetchWithin height) := by
  induction height with
  | zero =>
    intro n _ hh
    rw [height_eq] at hh
    omega
  | succ height ih =>
    intro n hb hh ht
    cases hcur : n.progress.cursor with
    | none =>
      rw [fetchWithin, hcur]
      exact spent_self hb (by rintro _ ⟨⟩)
    | some b =>
      cases hl : n.isLeaf with
      | true =>
        rw [fetchWithin_leaf hl hcur]
        exact spent_fetchLeaf hb hl hcur
      | false =>
        have hw : ∀ {e m}, f.walk (f.fetchWithin height) f.steps (start n) n = (e, m) →
            WalkSpent f n e m := fun hwalk => by
          have := spent_walk ih hh ht hl hb (Nat.lt_of_lt_of_le (hb.leftOf_lt _) ht)
          rwa [hwalk] at this
        refine fetchWithin_rule hl hcur (fun e m hwalk => ?_) (fun m hwalk => ?_) (fun m hwalk => ?_)
          (fun m hwalk => ?_) fun m hwalk => ?_
        · exact ⟨(hw hwalk).level, (hw hwalk).bounded, by rintro ⟨⟩, by rintro _ ⟨⟩⟩
        · exact absurd rfl (hw hwalk).finished
        · exact (hw hwalk).spent hcur (.inr rfl) (by rintro ⟨⟩)
        · have hlevel := (hw hwalk).level
          refine spent_advance (hw hwalk).bounded ((hw hwalk).cursor_eq.trans hcur) hlevel ?_
          rw [left_eq, unread, unread, (hw hwalk).cursor_eq, hlevel.steps_eq]
          omega
        · exact (hw hwalk).spent hcur (.inl rfl) (map_batch_ne_unfinished _)

/-! ## Larger bounds change nothing -/

/-- The fetcher with another bound on the steps of a walk. -/
def withSteps (f : Fetcher) (steps : Nat) : Fetcher := { f with steps }

section Larger

variable {steps s s' : Nat} {fetch' : Node → Except Failure Outcome × Node}
  (hfetch : ∀ n, Bounded f.registry n → n.height ≤ height → turns f.registry n ≤ f.steps →
    fetch' n = fetch n)
include hfetch

theorem turn_withSteps (n : Node) (i : Nat) (hb : Bounded f.registry child) (hh : child.height ≤ height)
    (ht : turns f.registry child ≤ f.steps) :
    (f.withSteps steps).turn fetch' n i child = f.turn fetch n i child := by
  have hopen : (f.withSteps steps).openCursor = f.openCursor := rfl
  rw [turn, turn, hopen]
  split
  · rfl
  · exact hfetch child hb hh ht
  · split
    · rfl
    · rename_i vals _
      obtain ⟨hl, hbo, -⟩ := bounded_openCursor (some vals) hb
      generalize f.openCursor (some vals) child = opened at hl hbo
      obtain ⟨_ | _, opened⟩ := opened
      · rfl
      · exact hfetch opened hbo (hl.height_eq ▸ hh) (hl.turns_eq ▸ ht)

theorem walk_withSteps (hends : Ends f height fetch) (hh : n.height ≤ height + 1)
    (hb : turns f.registry n ≤ f.steps) (h : Spends f n s i m) (hs : s ≤ s') :
    (f.withSteps steps).walk fetch' s' i m = f.walk fetch s i m := by
  induction s generalizing s' i m with
  | zero => exact absurd h.pos (Nat.lt_irrefl 0)
  | succ s ih =>
    obtain ⟨s', rfl⟩ := Nat.exists_eq_add_of_lt (Nat.lt_of_lt_of_le (Nat.succ_pos s) hs)
    rw [Nat.zero_add, walk, walk]
    have hs := Nat.le_of_succ_le_succ (Nat.zero_add s' ▸ hs)
    cases hc : m.children[i]? with
    | none => rfl
    | some child =>
      have hmem := List.mem_of_getElem? hc
      have hlt := h.level.height_eq ▸ height_lt_of_mem hmem
      have hturn : (f.withSteps steps).turn fetch' m i child = f.turn fetch m i child :=
        turn_withSteps hfetch m i (h.bounded.of_mem hmem) (by omega)
          ((turns_child_le hmem).trans (h.level.turns_eq ▸ hb))
      dsimp only
      rw [hturn]
      rcases ht : f.turn fetch m i child with ⟨e | o, child'⟩
      · rfl
      · cases o with
        | batch c => exact ih (h.batch hends hh hb hc ht) hs
        | pending => rfl
        | unfinished => rfl
        | exhausted =>
          cases i with
          | zero => rfl
          | succ i =>
            dsimp only
            rw [keepBefore_setChild]
            exact ih (h.back hends hh hb hc ht) hs

end Larger

/-- **A fetch does not depend on its bounds**, where they are large enough. -/
theorem fetchWithin_withSteps {steps height' : Nat} (hs : f.steps ≤ steps) (hb : Bounded f.registry n)
    (hh : n.height ≤ height) (hh' : n.height ≤ height') (ht : turns f.registry n ≤ f.steps) :
    (f.withSteps steps).fetchWithin height' n = f.fetchWithin height n := by
  induction height generalizing height' n with
  | zero =>
    rw [height_eq] at hh
    omega
  | succ height ih =>
    obtain _ | height' := height'
    · rw [height_eq] at hh'
      omega
    · rw [fetchWithin, fetchWithin]
      cases hcur : n.progress.cursor with
      | none => rfl
      | some b =>
        cases hl : n.isLeaf with
        | true => rfl
        | false =>
          have hstart : Spends f n f.steps (start n) n :=
            ⟨.refl _ n, hb, rfl, Nat.lt_of_lt_of_le (hb.leftOf_lt _) ht, .inr ⟨start_lt hl, rfl⟩⟩
          have hends : Ends f (min height height') (f.fetchWithin height) := fun n hb hh =>
            ends_fetchWithin f height n hb (hh.trans (Nat.min_le_left ..))
          have hwalk : (f.withSteps steps).walk ((f.withSteps steps).fetchWithin height')
              (f.withSteps steps).steps (start n) n = f.walk (f.fetchWithin height) f.steps (start n) n :=
            walk_withSteps (fun k hb hh => ih hb (hh.trans (Nat.min_le_left ..))
              (hh.trans (Nat.min_le_right ..))) hends (by omega) ht hstart hs
          dsimp only
          rw [hwalk]
          rfl

end PathQuery.Fetcher
