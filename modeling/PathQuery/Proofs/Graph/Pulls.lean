import Mathlib.Algebra.Order.BigOperators.Group.List
import PathQuery.Proofs.Graph.Log
import PathQuery.Proofs.Graph.PrefixTree

/-!
# Proofs/Graph/Pulls — how often one fetch pulls from a node

A walk goes on from child to child, and back only over a child that is exhausted.  So between two batches of
one node some child was given up (`Log.Spaced`), and in one fetch a node is asked for no more batches than
children are given up, and one more (`Graph.paced_of_called`).  It can be asked for more than one
(`Graph.exists_pulled_twice`).
-/

namespace PathQuery

/-! ## Numbers of nodes -/

namespace Node

variable {n m k l : Node}

/-- The numbers of a node and of the nodes below it. -/
def ids (n : Node) : List Nat := n.all.map (·.plan.id)

/-- The numbers of the nodes below a node. -/
def idsBelow (n : Node) : List Nat := n.children.flatMap ids

theorem ids_eq (n : Node) : n.ids = n.plan.id :: n.idsBelow := by
  rw [ids, all_eq, List.map_cons, List.map_flatMap]
  rfl

theorem ids_subset_idsBelow (hk : k ∈ n.children) {id : Nat} (h : id ∈ k.ids) : id ∈ n.idsBelow :=
  List.mem_flatMap.mpr ⟨k, hk, h⟩

theorem Alike.ids_eq (h : n.Alike m) : n.ids = m.ids := by
  have hblank : ∀ n : Node, n.blank.ids = n.ids := by
    intro n
    induction n using Node.induction with
    | node n ih =>
      rw [Node.ids_eq, Node.ids_eq, blank_eq, idsBelow, idsBelow, List.flatMap_map]
      exact congrArg _ (List.flatMap_congr ih)
  rw [← hblank n, ← hblank m, h]

theorem Alike.idsBelow_eq (h : n.Alike m) : n.idsBelow = m.idsBelow := by
  have := h.ids_eq
  rw [Node.ids_eq, Node.ids_eq] at this
  exact (List.cons.inj this).2

theorem nodup_ids_child (h : n.ids.Nodup) (hk : k ∈ n.children) : k.ids.Nodup := by
  rw [ids_eq, List.nodup_cons, idsBelow, List.nodup_flatMap] at h
  exact h.2.1 k hk

/-- Different children have different numbers below them. -/
theorem disjoint_ids (h : n.ids.Nodup) {i j : Nat} (hij : i < j) (hk : n.children[i]? = some k)
    (hl : n.children[j]? = some l) {id : Nat} (hm : id ∈ k.ids) : id ∉ l.ids := by
  rw [ids_eq, List.nodup_cons, idsBelow, List.nodup_flatMap] at h
  obtain ⟨hi, rfl⟩ := List.getElem?_eq_some_iff.mp hk
  obtain ⟨hj, rfl⟩ := List.getElem?_eq_some_iff.mp hl
  exact fun hm' => List.pairwise_iff_getElem.mp h.2.2 i j hi hj hij hm hm'

/-- The nodes of a prefix tree have different numbers. -/
theorem IsPrefixTree.nodup_ids {resource : String} {predicates : List Filter.Predicate}
    {selected : List String} (h : n.IsPrefixTree resource predicates selected) : n.ids.Nodup := by
  have hplaces : n.places.Nodup := (h.places.1.nodup_iff).mpr (nodup_prefixes _)
  -- the number of a node says its place
  have hsome : n.places.map some =
      (n.located.map fun p => p.2.plan.id).map ((queryPrefixes predicates selected)[·]?) := by
    rw [Node.places, List.map_map, List.map_map]
    refine List.map_congr_left fun p hp => ?_
    obtain ⟨hops, m⟩ := p
    exact (h.numbered hops m hp).symm
  have hmapped := hplaces.map (Option.some_injective _)
  rw [hsome] at hmapped
  rw [ids, ← nodes_located, List.map_map]
  exact hmapped.of_map

end Node

theorem Graph.Built.nodup_ids {g : Graph} (h : g.Built) : g.root.ids.Nodup := by
  cases h with
  | ofRoot hc h => exact (Node.isPrefixTree_of_ofQuery? hc h).nodup_ids

/-! ## Logs in which pulls are spaced -/

/-- What each batch of a node took. -/
def Log.batchesOf (id : Nat) : Log → List Nat
  | [] => []
  | .pulled k taken :: rest => if k = id then taken :: batchesOf id rest else batchesOf id rest
  | .retired _ :: rest => batchesOf id rest

/-- The number of children that were given up. -/
def Log.retirements : Log → Nat
  | [] => 0
  | .pulled _ _ :: rest => retirements rest
  | .retired _ :: rest => retirements rest + 1

/-- The nodes pulled from since a child was given up, after those in `seen`. -/
def Log.seenAfter : (seen : List Nat) → Log → List Nat
  | seen, [] => seen
  | seen, .pulled id _ :: rest => seenAfter (id :: seen) rest
  | _, .retired _ :: rest => seenAfter [] rest

/-- No node is pulled from that was pulled from since a child was given up; the nodes in `seen` were. -/
def Log.Spaced : (seen : List Nat) → Log → Prop
  | _, [] => True
  | seen, .pulled id _ :: rest => id ∉ seen ∧ Spaced (id :: seen) rest
  | _, .retired _ :: rest => Spaced [] rest

/-- An event at one of some nodes; a batch takes no more than it may. -/
def Event.Within (f : Fetcher) (ids : List Nat) : Event → Prop
  | .pulled id taken => id ∈ ids ∧ taken ≤ max f.batchSize 1
  | .retired id => id ∈ ids

theorem Event.Within.mono {f : Fetcher} {ids ids' : List Nat} {e : Event} (h : e.Within f ids)
    (hi : ∀ id ∈ ids, id ∈ ids') : e.Within f ids' := by
  cases e with
  | pulled id taken => exact ⟨hi id h.1, h.2⟩
  | retired id => exact hi id h

namespace Log

variable {seen : List Nat} {log log' : Log} {id : Nat}

theorem seenAfter_append : seenAfter seen (log ++ log') = seenAfter (seenAfter seen log) log' := by
  induction log generalizing seen with
  | nil => rfl
  | cons e rest ih => cases e <;> exact ih

theorem spaced_append : Spaced seen (log ++ log') ↔ Spaced seen log ∧ Spaced (seenAfter seen log) log' := by
  induction log generalizing seen with
  | nil => exact (and_iff_right True.intro).symm
  | cons e rest ih =>
    cases e with
    | pulled k taken => exact (and_congr_right fun _ => ih).trans and_assoc.symm
    | retired k => exact ih

/-- A node was pulled from before, or it is in the log. -/
theorem mem_seenAfter (h : id ∈ seenAfter seen log) : id ∈ seen ∨ ∃ taken, .pulled id taken ∈ log := by
  induction log generalizing seen with
  | nil => exact .inl h
  | cons e rest ih =>
    cases e with
    | pulled k taken =>
      rcases ih h with h | ⟨taken', h⟩
      · rcases List.mem_cons.mp h with rfl | h
        · exact .inr ⟨taken, .head _⟩
        · exact .inl h
      · exact .inr ⟨taken', .tail _ h⟩
    | retired k =>
      rcases ih h with h | ⟨taken', h⟩
      · obtain ⟨⟩ := h
      · exact .inr ⟨taken', .tail _ h⟩

/-- What was seen stays so while no child is given up. -/
theorem mem_seenAfter_of_mem (h : id ∈ seen) : (∃ k, .retired k ∈ log) ∨ id ∈ seenAfter seen log := by
  induction log generalizing seen with
  | nil => exact .inr h
  | cons e rest ih =>
    cases e with
    | pulled k taken =>
      rcases ih (List.mem_cons_of_mem k h) with ⟨l, hl⟩ | hseen
      · exact .inl ⟨l, .tail _ hl⟩
      · exact .inr hseen
    | retired k => exact .inl ⟨k, .head _⟩

/-- **Between two batches of a node a child is given up.** -/
theorem Spaced.exists_retired {l₁ l₂ l₃ : Log} {a b : Nat}
    (h : Spaced seen (l₁ ++ .pulled id a :: (l₂ ++ .pulled id b :: l₃))) : ∃ k, .retired k ∈ l₂ := by
  obtain ⟨-, -, h⟩ := spaced_append.mp h
  obtain ⟨-, hfresh, -⟩ := spaced_append.mp h
  exact (mem_seenAfter_of_mem (.head _)).resolve_right hfresh

/-- **A node gives one batch**, and one more for each child that is given up. -/
theorem Spaced.length_batchesOf_le (h : Spaced seen log) :
    (log.batchesOf id).length ≤ log.retirements + 1 ∧
      (id ∈ seen → (log.batchesOf id).length ≤ log.retirements) := by
  induction log generalizing seen with
  | nil => exact ⟨Nat.zero_le _, fun _ => Nat.le_refl _⟩
  | cons e rest ih =>
    cases e with
    | pulled k taken =>
      obtain ⟨hfresh, h⟩ := h
      obtain ⟨hle, hseen⟩ := ih h
      rw [batchesOf, retirements]
      split
      · rename_i he
        exact ⟨Nat.succ_le_succ (hseen (he ▸ .head _)), fun hm => absurd (he ▸ hm) hfresh⟩
      · exact ⟨hle, fun hm => hseen (.tail _ hm)⟩
    | retired k => exact ⟨Nat.le_succ_of_le (ih h).1, fun _ => (ih h).1⟩

theorem mem_batchesOf {taken : Nat} : taken ∈ log.batchesOf id ↔ .pulled id taken ∈ log := by
  induction log with
  | nil => simp [batchesOf]
  | cons e rest ih =>
    cases e with
    | pulled k t =>
      rw [batchesOf]
      split <;> simp_all [eq_comm]
    | retired k => simp [batchesOf, ih]

theorem batchesOf_append : batchesOf id (log ++ log') = batchesOf id log ++ batchesOf id log' := by
  induction log with
  | nil => rfl
  | cons e rest ih =>
    cases e with
    | pulled k taken =>
      rw [List.cons_append, batchesOf, batchesOf, ih]
      split <;> rfl
    | retired k => exact ih

/-- One batch of a node at most, of a size at most. -/
def Brief (id size : Nat) (log : Log) : Prop := log = [] ∨ ∃ taken, taken ≤ size ∧ log = [.pulled id taken]

variable {size : Nat}

theorem Brief.spaced (h : Brief id size log) (hfresh : id ∉ seen) : Spaced seen log := by
  rcases h with rfl | ⟨taken, -, rfl⟩
  · exact True.intro
  · exact ⟨hfresh, True.intro⟩

theorem Brief.length_batchesOf_le (h : Brief id size log) (k : Nat) : (log.batchesOf k).length ≤ 1 := by
  rcases h with rfl | ⟨taken, -, rfl⟩
  · exact Nat.zero_le 1
  · rw [batchesOf]
    split <;> simp [batchesOf]

theorem Brief.within {f : Fetcher} {ids : List Nat} (h : Brief id size log) (hi : id ∈ ids)
    (hs : size ≤ max f.batchSize 1) : ∀ e ∈ log, e.Within f ids := by
  rcases h with rfl | ⟨taken, hle, rfl⟩
  · exact List.forall_mem_nil _
  · exact List.forall_mem_singleton.mpr ⟨hi, hle.trans hs⟩

/-- Events at other nodes are no batches of a node. -/
theorem batchesOf_eq_nil {f : Fetcher} {ids : List Nat} (h : ∀ e ∈ log, e.Within f ids) (hid : id ∉ ids) :
    log.batchesOf id = [] :=
  List.eq_nil_iff_forall_not_mem.mpr fun _ ht => hid (h _ (mem_batchesOf.mp ht)).1

end Log

/-- A pull takes no more documents than it may, also where it fails. -/
theorem BatchCursor.pulled_pull_le (count moved : Nat) (b : BatchCursor) (c : Collection) :
    (pull count moved b c).2.1.pulled ≤ b.pulled + count := by
  induction count generalizing moved b c with
  | zero => exact Nat.le_refl _
  | succ count ih =>
    rw [pull]
    rcases b.cursor.next with ⟨_ | _ | doc, cursor⟩
    · exact Nat.le_add_right _ _
    · exact Nat.le_add_right _ _
    · dsimp only
      cases c.add ⟨b.pulled, Entity.ofDocument doc⟩ with
      | error e => exact Nat.add_le_add_left (Nat.succ_le_succ (Nat.zero_le count)) _
      | ok added =>
        have := ih (moved + 1) { b with cursor, pulled := b.pulled + 1 } added.2
        dsimp only at this ⊢
        omega

namespace Fetcher

open Node

variable {f : Fetcher} {fetch : Node → Logged (Except Failure Outcome × Node)} {n child : Node}
  {b : BatchCursor} {seen : List Nat}

/-! ## Steps of a fetch -/

theorem brief_nextBatchLogged (id : Nat) (b : BatchCursor) (c : Collection) :
    Log.Brief id b.batchSize (b.nextBatchLogged id c).log := by
  have := BatchCursor.pulled_pull_le b.batchSize 0 b c
  refine .inr ⟨_, ?_, rfl⟩
  rw [BatchCursor.nextBatch]
  omega

theorem brief_pullLogged (n : Node) (b : BatchCursor) :
    Log.Brief n.plan.id b.batchSize (pullLogged n b).log := by
  rw [pullLogged, Logged.log_bind, Logged.log_pure, List.append_nil]
  exact brief_nextBatchLogged _ b _

/-- A leaf opens its cursor without pulling from it. -/
theorem brief_openCursorLogged (f : Fetcher) (values : Option (List Value)) (n : Node) :
    Log.Brief n.plan.id (max f.batchSize 1) (f.openCursorLogged values n).log ∧
      (n.isLeaf = true → (f.openCursorLogged values n).log = []) := by
  rw [openCursorLogged]
  split
  · exact ⟨.inl rfl, fun _ => rfl⟩
  · cases hb : f.registry.fetchBatches (requestFor n values) f.batchSize with
    | error e => exact ⟨.inl rfl, fun _ => rfl⟩
    | ok b =>
      have hnext := brief_nextBatchLogged n.plan.id b n.progress.results.purge
      obtain ⟨-, -, hsize, -⟩ := gives_of_fetchBatches hb
      rw [hsize] at hnext
      dsimp only
      split
      · exact ⟨.inl rfl, fun _ => rfl⟩
      · rename_i hleaf
        refine ⟨?_, fun hl => absurd hl hleaf⟩
        rw [Logged.log_bind]
        generalize b.nextBatchLogged n.plan.id n.progress.results.purge = next at hnext ⊢
        obtain ⟨⟨_ | _, b', results⟩, log⟩ := next <;> simpa using hnext

theorem brief_fetchLeafLogged (f : Fetcher) (n : Node) (b : BatchCursor) :
    Log.Brief n.plan.id b.batchSize (f.fetchLeafLogged n b).log := by
  have hpull := brief_pullLogged n b
  rw [fetchLeafLogged]
  split
  · rw [Logged.log_bind]
    generalize pullLogged n b = pulled at hpull ⊢
    obtain ⟨⟨_ | _, m⟩, log⟩ := pulled
    · simpa using hpull
    · dsimp only at hpull ⊢
      split
      · simpa using hpull
      · split <;> simpa using hpull
  · exact .inl rfl

theorem brief_advanceLogged (n : Node) (b : BatchCursor) :
    Log.Brief n.plan.id b.batchSize (advanceLogged n b).log := by
  have hpull := brief_pullLogged n b
  rw [advanceLogged]
  split
  · rw [Logged.log_bind]
    generalize pullLogged n b = pulled at hpull ⊢
    obtain ⟨⟨_ | _, m⟩, log⟩ := pulled <;> simpa using hpull
  · exact .inl rfl

/-! ## Walks -/

/-- The log of a fetch from a node: events at the node and below it, at most one batch of the node itself, and
pulls that are spaced after any of other nodes.  A node with children pulls only once one of them is given up,
so it may have pulled before. -/
structure Metered (f : Fetcher) (n : Node) (log : Log) : Prop where
  within : ∀ e ∈ log, e.Within f n.ids
  own : (log.batchesOf n.plan.id).length ≤ 1
  spaced : ∀ seen, (∀ id ∈ seen, id ∉ n.idsBelow) → (n.isLeaf = true → n.plan.id ∉ seen) →
    Log.Spaced seen log

/-- A way of fetching whose logs are metered. -/
def Meters (f : Fetcher) (fetch : Node → Logged (Except Failure Outcome × Node)) : Prop :=
  ∀ n : Node, n.Sized f → n.ids.Nodup → Metered f n (fetch n).log

/-- The log of a turn of a child: events at the child and below it, and pulls that are spaced after any of
other nodes. -/
structure TurnMetered (f : Fetcher) (child : Node) (log : Log) : Prop where
  within : ∀ e ∈ log, e.Within f child.ids
  spaced : ∀ seen, (∀ id ∈ seen, id ∉ child.ids) → Log.Spaced seen log

theorem turnMetered_nil (f : Fetcher) (child : Node) : TurnMetered f child [] :=
  ⟨List.forall_mem_nil _, fun _ _ => True.intro⟩

theorem Metered.turned {log : Log} (h : Metered f child log) : TurnMetered f child log := by
  refine ⟨h.within, fun seen hs => h.spaced seen (fun id hid hb => hs id hid ?_) fun _ hid => hs _ hid ?_⟩
  · rw [ids_eq]
    exact .tail _ hb
  · rw [ids_eq]
    exact .head _

/-- A child that is opened may pull, and pulls again only once one of its own children is given up. -/
theorem Metered.turned_of_open {opened : Node} {before log : Log} (h : Metered f opened log)
    (ha : opened.Alike child) (hd : child.ids.Nodup)
    (hb : Log.Brief child.plan.id (max f.batchSize 1) before) (hl : child.isLeaf = true → before = []) :
    TurnMetered f child (before ++ log) := by
  have hself : child.plan.id ∈ child.ids := ids_eq child ▸ .head _
  refine ⟨fun e he => ?_, fun seen hs => Log.spaced_append.mpr ⟨hb.spaced fun hid => hs _ hid hself, ?_⟩⟩
  · rcases List.mem_append.mp he with he | he
    · exact hb.within hself (Nat.le_refl _) e he
    · exact ha.ids_eq ▸ h.within e he
  · rw [ids_eq, List.nodup_cons] at hd
    refine h.spaced _ (fun id hid => ?_) fun hleaf => ?_
    · rw [ha.idsBelow_eq]
      rcases hb with rfl | ⟨taken, -, rfl⟩
      · exact fun hbelow => hs id hid (ids_eq child ▸ .tail _ hbelow)
      · rcases List.mem_cons.mp hid with rfl | hid
        · exact hd.1
        · exact fun hbelow => hs id hid (ids_eq child ▸ .tail _ hbelow)
    · rw [hl (ha.isLeaf_eq ▸ hleaf), ha.plan_eq]
      exact fun hid => hs _ hid hself

theorem turnMetered_turnLogged (hfetch : Meters f fetch) (h : child.Sized f) (hd : child.ids.Nodup) (n : Node)
    (i : Nat) : TurnMetered f child (f.turnLogged fetch n i child).log := by
  rw [turnLogged]
  cases child.joinedStatus with
  | complete => exact turnMetered_nil f child
  | ready => exact (hfetch child h hd).turned
  | unready =>
    cases valuesFor n i child with
    | error e => exact turnMetered_nil f child
    | ok values =>
      dsimp only
      obtain ⟨hbrief, hleaf⟩ := brief_openCursorLogged f (some values) child
      have hopen := preserved_openCursor h (some values)
      rw [← result_openCursorLogged] at hopen
      rw [Logged.log_bind]
      generalize f.openCursorLogged (some values) child = opened at hbrief hleaf hopen
      obtain ⟨⟨_ | _, m⟩, log⟩ := opened
      · -- a child that could not be opened is not fetched from
        have hself : child.plan.id ∈ child.ids := ids_eq child ▸ .head _
        rw [Logged.log_pure, List.append_nil]
        exact ⟨hbrief.within hself (Nat.le_refl _), fun seen hs => hbrief.spaced fun hid => hs _ hid hself⟩
      · exact (hfetch m hopen.sized (hopen.alike.ids_eq ▸ hd)).turned_of_open hopen.alike hd hbrief hleaf

/-- Nodes that stand neither at the child of a position nor after it. -/
def ClearFrom (n : Node) (i : Nat) (seen : List Nat) : Prop :=
  ∀ j child, i ≤ j → n.children[j]? = some child → ∀ id ∈ seen, id ∉ child.ids

/-- The log of a walk from a position on: events below the node, and pulls that are spaced after any of other
children.  A walk that is exhausted has given up a child last. -/
structure WalkMetered (f : Fetcher) (n : Node) (i : Nat) (p : Logged (Except Failure WalkEnd × Node)) :
    Prop where
  within : ∀ e ∈ p.log, e.Within f n.idsBelow
  spaced : ∀ seen, ClearFrom n i seen → Log.Spaced seen p.log
  last : p.result.1 = .ok .exhausted → ∀ seen, Log.seenAfter seen p.log = []

section Turns

variable {m : Node} {i : Nat} {log : Log} {r : Except Failure WalkEnd}
  {p : Logged (Except Failure WalkEnd × Node)}

theorem walkMetered_nil (n : Node) (i : Nat) (hr : r ≠ .ok .exhausted) : WalkMetered f n i ⟨(r, m), []⟩ :=
  ⟨List.forall_mem_nil _, fun _ _ => True.intro, fun h => absurd h hr⟩

variable (ht : TurnMetered f child log) (hc : n.children[i]? = some child)

include ht hc

theorem TurnMetered.within_below : ∀ e ∈ log, e.Within f n.idsBelow := fun e he =>
  (ht.within e he).mono fun _ => ids_subset_idsBelow (List.mem_of_getElem? hc)

theorem TurnMetered.spaced_of_clear (hs : ClearFrom n i seen) : Log.Spaced seen log :=
  ht.spaced seen (hs i child (Nat.le_refl i) hc)

/-- A walk may end with a turn. -/
theorem TurnMetered.ends (hr : r ≠ .ok .exhausted) : WalkMetered f n i ⟨(r, m), log ++ []⟩ := by
  rw [List.append_nil]
  exact ⟨ht.within_below hc, fun _ => ht.spaced_of_clear hc, fun h => absurd h hr⟩

/-- A walk goes on to the next child: what the turn pulled from stands before it. -/
theorem TurnMetered.goes_on (hd : n.ids.Nodup) (ha : m.Alike n)
    (hm : ∀ j, i < j → m.children[j]? = n.children[j]?) (hw : WalkMetered f m (i + 1) p) :
    WalkMetered f n i ⟨p.result, log ++ p.log⟩ := by
  refine ⟨fun e he => ?_, fun seen hs => Log.spaced_append.mpr ⟨ht.spaced_of_clear hc hs, ?_⟩,
    fun hr seen => ?_⟩
  · rcases List.mem_append.mp he with he | he
    · exact ht.within_below hc e he
    · exact ha.idsBelow_eq ▸ hw.within e he
  · refine hw.spaced _ fun j k hj hk id hid => ?_
    rw [hm j hj] at hk
    rcases Log.mem_seenAfter hid with hid | ⟨taken, hpulled⟩
    · exact hs j k (Nat.le_of_succ_le hj) hk id hid
    · exact disjoint_ids hd hj hc hk (ht.within _ hpulled).1
  · rw [Log.seenAfter_append, hw.last hr]

/-- A walk gives up a child and goes back, or ends there: nothing was pulled from since. -/
theorem TurnMetered.goes_back (hw : ∀ e ∈ p.log, e.Within f n.idsBelow) (hs : Log.Spaced [] p.log)
    (hl : p.result.1 = .ok .exhausted → Log.seenAfter [] p.log = []) :
    WalkMetered f n i ⟨p.result, log ++ .retired child.plan.id :: p.log⟩ := by
  refine ⟨fun e he => ?_, fun seen hf => Log.spaced_append.mpr ⟨ht.spaced_of_clear hc hf, hs⟩,
    fun hr seen => ?_⟩
  · rcases List.mem_append.mp he with he | he
    · exact ht.within_below hc e he
    · rcases List.mem_cons.mp he with rfl | he
      · exact ids_subset_idsBelow (List.mem_of_getElem? hc) (ids_eq child ▸ .head _)
      · exact hw e he
  · rw [Log.seenAfter_append]
    exact hl hr

end Turns

/-- **A walk** pulls from a node again only once a child was given up. -/
theorem walkMetered_walkLogged (hfetch : Meters f fetch) (hkeep : Preserves f fun n => (fetch n).result)
    (h : n.Sized f) (hd : n.ids.Nodup) (steps i : Nat) : WalkMetered f n i (f.walkLogged fetch steps i n) := by
  induction steps generalizing n i with
  | zero => exact walkMetered_nil n i (by rintro ⟨⟩)
  | succ steps ih =>
    rw [walkLogged]
    cases hc : n.children[i]? with
    | none => exact walkMetered_nil n i (by rintro ⟨⟩)
    | some child =>
      have hmem := List.mem_of_getElem? hc
      have hturn := turnMetered_turnLogged hfetch (h.child hmem) (nodup_ids_child hd hmem) n i
      have hturned := preserved_turn hkeep (h.child hmem) n i
      rw [← result_turnLogged] at hturned
      dsimp only
      generalize f.turnLogged fetch n i child = turned at hturn hturned
      obtain ⟨⟨r, child'⟩, log⟩ := turned
      rcases r with e | c | _ | _ | _
      · exact hturn.ends hc (by rintro ⟨⟩)
      · have hkept := preserved_after h hc hturned (some c)
        exact hturn.goes_on hc hd hkept.alike (fun j hj => getElem?_setChild_of_ne (Nat.ne_of_lt hj) n child')
          (ih hkept.sized (hkept.alike.ids_eq ▸ hd) (i + 1))
      · exact hturn.ends hc (by rintro ⟨⟩)
      · have hkept := preserved_after h hc (hturned.trans (preserved_reset f child')) none
        rw [← keepBefore_setChild] at hkept
        have hid : child'.plan.id = child.plan.id := congrArg Plan.id hturned.alike.plan_eq
        cases i with
        | zero =>
          have hback := hturn.goes_back hc
            (p := ⟨(.ok .exhausted, (n.setChild 0 child'.reset).keepBefore 0), []⟩)
            (List.forall_mem_nil _) True.intro fun _ => rfl
          rwa [← hid] at hback
        | succ i =>
          have hw := ih hkept.sized (hkept.alike.ids_eq ▸ hd) i
          have hback := hturn.goes_back hc (fun e he => hkept.alike.idsBelow_eq ▸ hw.within e he)
            (hw.spaced [] fun _ _ _ _ _ => List.not_mem_nil.elim) fun hr => hw.last hr []
          rwa [← hid] at hback
      · exact hturn.ends hc (by rintro ⟨⟩)

/-- A node with children pulls once its walk is exhausted, so when a child was given up last. -/
theorem WalkMetered.metered {p : Logged (Except Failure WalkEnd × Node)} {i : Nat} {rest : Log}
    (hw : WalkMetered f n i p) (hd : n.ids.Nodup) (hb : Log.Brief n.plan.id (max f.batchSize 1) rest)
    (hr : rest = [] ∨ p.result.1 = .ok .exhausted) : Metered f n (p.log ++ rest) := by
  have hself : n.plan.id ∈ n.ids := ids_eq n ▸ .head _
  rw [ids_eq, List.nodup_cons] at hd
  refine ⟨fun e he => ?_, ?_, fun seen hs _ => Log.spaced_append.mpr
    ⟨hw.spaced seen fun _ child _ hc id hid hm => ?_, ?_⟩⟩
  · rcases List.mem_append.mp he with he | he
    · exact (hw.within e he).mono fun id hid => ids_eq n ▸ .tail _ hid
    · exact hb.within hself (Nat.le_refl _) e he
  · rw [Log.batchesOf_append, Log.batchesOf_eq_nil hw.within hd.1]
    exact hb.length_batchesOf_le _
  · exact hs id hid (ids_subset_idsBelow (List.mem_of_getElem? hc) hm)
  · rcases hr with rfl | hr
    · exact True.intro
    · rw [hw.last hr]
      exact hb.spaced List.not_mem_nil

/-- **A fetch** pulls from a node again only once a child was given up. -/
theorem meters_fetchWithinLogged (f : Fetcher) (height : Nat) : Meters f (f.fetchWithinLogged height) := by
  have hnil : ∀ n, Metered f n [] := fun n => ⟨List.forall_mem_nil _, Nat.zero_le 1, fun _ _ _ => True.intro⟩
  induction height with
  | zero => exact fun n _ _ => hnil n
  | succ height ih =>
    intro n h hd
    have hself : n.plan.id ∈ n.ids := ids_eq n ▸ .head _
    rw [fetchWithinLogged]
    cases hb : n.progress.cursor with
    | none => exact hnil n
    | some b =>
      have hsize := h.cursor hb
      dsimp only
      split
      · rename_i hl
        have hbrief := brief_fetchLeafLogged f n b
        exact ⟨hbrief.within hself (Nat.le_of_eq hsize), hbrief.length_batchesOf_le _,
          fun seen _ hs => hbrief.spaced (hs hl)⟩
      · have hkeep : Preserves f fun n => (f.fetchWithinLogged height n).result := by
          simpa only [result_fetchWithinLogged] using preserved_fetchWithin f height
        have hwalk := walkMetered_walkLogged ih hkeep h hd f.steps (start n)
        have hwalked := preserved_walk hkeep h f.steps (start n)
        rw [← result_walkLogged] at hwalked
        rw [Logged.log_bind]
        generalize f.walkLogged (f.fetchWithinLogged height) f.steps (start n) n = walked at hwalk hwalked
        obtain ⟨⟨r, m⟩, log⟩ := walked
        have hbrief := brief_advanceLogged m b
        rw [hwalked.alike.plan_eq, hsize] at hbrief
        rcases r with _ | _ | _ | _ | _
        · exact hwalk.metered hd (.inl rfl) (.inl rfl)
        · exact hwalk.metered hd (.inl rfl) (.inl rfl)
        · exact hwalk.metered hd (.inl rfl) (.inl rfl)
        · exact hwalk.metered hd hbrief (.inr rfl)
        · exact hwalk.metered hd (.inl rfl) (.inl rfl)

end Fetcher

namespace Graph

open Node

variable {g g₁ : Graph}

/-! ## One fetch from the root -/

/-- **How much one fetch pulls.** -/
structure Paced (g : Graph) : Prop where
  /-- The log is one of the fetch itself. -/
  result : g.fetchLogged.result = g.fetch
  /-- Between two batches of a node some child is given up. -/
  spaced : ∀ l₁ l₂ l₃ id a b, g.fetchLogged.log = l₁ ++ .pulled id a :: (l₂ ++ .pulled id b :: l₃) →
    ∃ k, .retired k ∈ l₂
  /-- So a node gives no more batches than children are given up, and one more. -/
  batches : ∀ id, (g.fetchLogged.log.batchesOf id).length ≤ g.fetchLogged.log.retirements + 1
  /-- The root gives at most one. -/
  root : (g.fetchLogged.log.batchesOf g.root.plan.id).length ≤ 1
  /-- A batch takes at most as many documents as a batch may have, -/
  size : ∀ id, ∀ taken ∈ g.fetchLogged.log.batchesOf id, taken ≤ max g.fetcher.batchSize 1
  /-- and all batches of a node take at most as many times that as there may be batches. -/
  taken : ∀ id, (g.fetchLogged.log.batchesOf id).sum ≤
    (g.fetchLogged.log.retirements + 1) * max g.fetcher.batchSize 1

theorem log_fetchLogged (g : Graph) :
    g.fetchLogged.log = (g.fetcher.fetchWithinLogged g.root.height g.root).log := by
  rw [fetchLogged, Logged.log_bind, Logged.log_pure, List.append_nil]

/-- **A fetch pulls from a node again only after a child was given up**, whatever was called before. -/
theorem paced_of_called (hb : g.Built) (hr : g.Called g₁) : g₁.Paced := by
  obtain ⟨hkept, hf⟩ := hr.preserved (hb.idle.sized _)
  have hmetered := Fetcher.meters_fetchWithinLogged g₁.fetcher g₁.root.height g₁.root (hf ▸ hkept.sized)
    (hkept.alike.ids_eq ▸ hb.nodup_ids)
  rw [← log_fetchLogged] at hmetered
  have hspaced := hmetered.spaced [] (fun _ => List.not_mem_nil.elim) fun _ => List.not_mem_nil
  have hbatches : ∀ id, (g₁.fetchLogged.log.batchesOf id).length ≤ g₁.fetchLogged.log.retirements + 1 :=
    fun id => hspaced.length_batchesOf_le.1
  have hsize : ∀ id, ∀ taken ∈ g₁.fetchLogged.log.batchesOf id, taken ≤ max g₁.fetcher.batchSize 1 :=
    fun id taken ht => (hmetered.within _ (Log.mem_batchesOf.mp ht)).2
  refine ⟨result_fetchLogged g₁, fun l₁ l₂ l₃ id a b he => ?_, hbatches, hmetered.own, hsize, fun id => ?_⟩
  · rw [he] at hspaced
    exact hspaced.exists_retired
  · calc (g₁.fetchLogged.log.batchesOf id).sum
        ≤ (g₁.fetchLogged.log.batchesOf id).length • max g₁.fetcher.batchSize 1 :=
          List.sum_le_card_nsmul _ _ (hsize id)
      _ ≤ (g₁.fetchLogged.log.retirements + 1) * max g₁.fetcher.batchSize 1 :=
          Nat.mul_le_mul_right _ (hbatches id)

/-- The first fetch of the small store pulls a customer and a product, and gives up nothing. -/
theorem paced_of_called_shop : ∃ g g₁ : Graph, g.Built ∧ g.Called g₁ ∧ g₁.Paced ∧
    g₁.fetchLogged.log = [.pulled 1 1, .pulled 2 1] := by
  obtain ⟨root, after, hq, htest⟩ := Shop.exists_root (Shop.catalog Shop.store) "Orders" Shop.predicates []
    (fun root => (ofRoot (Shop.registry Shop.store) .projection 10 root).prepareRoot.2.fetchLogged.log ==
      [.pulled 1 1, .pulled 2 1]) (by decide +kernel)
  have hb : Built (ofRoot (Shop.registry Shop.store) .projection 10 root) := .ofRoot (.ofConfig _ _) hq _ _ _
  exact ⟨_, _, hb, .prepareRoot .refl, paced_of_called hb (.prepareRoot .refl), eq_of_beq htest⟩

/-- **A node may be pulled from twice in one fetch**: the first two lines join with the order of an unknown
product, so the walk goes back from the products to the lines and pulls the other two. -/
theorem exists_pulled_twice : ∃ (g g₁ : Graph) (c : Collection), g.Built ∧ g.Called g₁ ∧
    g₁.fetcher.batchSize = 2 ∧ g₁.fetchLogged.result = g₁.fetch ∧ g₁.fetch.1 = .ok (.batch c) ∧
    g₁.fetchLogged.log = [.pulled 1 2, .retired 2, .pulled 1 2, .pulled 2 1] ∧
    g₁.fetchLogged.log.batchesOf 1 = [2, 2] := by
  obtain ⟨root, after, hq, htest⟩ := Shop.exists_root (Shop.catalog Shop.lines) "Orders"
    [⟨"lines/id", .compare .ge, "0"⟩, ⟨"product/id", .compare .ge, "0"⟩] []
    (fun root =>
      let g := (ofRoot (Shop.registry Shop.lines) .projection 2 root).prepareRoot.2
      (Shop.given? g.fetch.1).isSome &&
        g.fetchLogged.log == [.pulled 1 2, .retired 2, .pulled 1 2, .pulled 2 1]) (by decide +kernel)
  have hb : Built (ofRoot (Shop.registry Shop.lines) .projection 2 root) := .ofRoot (.ofConfig _ _) hq _ _ _
  obtain ⟨hgiven, hlog⟩ := Bool.and_eq_true_iff.mp htest
  obtain ⟨c, hc⟩ := Option.isSome_iff_exists.mp hgiven
  refine ⟨_, _, c, hb, .prepareRoot .refl, rfl, result_fetchLogged _, Shop.eq_batch_of_given? hc,
    eq_of_beq hlog, ?_⟩
  rw [eq_of_beq hlog]
  rfl

end Graph

end PathQuery
