import PathQuery.Graph
import PathQuery.Proofs.Graph.Bound

/-!
# Proofs/Graph/Calls — whatever is called, fetching ends

A graph may be prepared, fetched from and reset in any order, and calls may fail on the way (`Called`).
The root stays within its bounds, and there are enough steps for it (`Ample`).  So no fetch is cut short,
and some number of fetches after any calls the root is exhausted or fails (`Ample.exists_ended`).
-/

namespace PathQuery

/-- An end is at an exhausted root or at a failure. -/
theorem Ending.ended_of_ne {ending : Ending} (h : ending ≠ .unfinished) :
    ending = .exhausted ∨ ∃ f, ending = .failed f := by
  cases ending with
  | exhausted => exact .inl rfl
  | failed f => exact .inr ⟨f, rfl⟩
  | unfinished => exact absurd rfl h

namespace Graph

open Node

/-! ## Actions at the root -/

section AtRoot

variable {g g₁ : Graph}

/-- An action at the root leaves the graph of the root that it leaves. -/
theorem atRoot_eq_iff {α : Type} {action : Node → α × Node} {a : α} :
    g.atRoot action = (a, g₁) ↔ g₁.fetcher = g.fetcher ∧ action g.root = (a, g₁.root) := by
  obtain ⟨fetcher, root⟩ := g₁
  rw [atRoot]
  generalize action g.root = acted
  obtain ⟨b, n⟩ := acted
  simp only [Prod.mk.injEq, mk.injEq]
  tauto

theorem prepareRoot_eq_iff {r : Except Failure Unit} : g.prepareRoot = (r, g₁) ↔
    g₁.fetcher = g.fetcher ∧ g.fetcher.openCursor none g.root = (r, g₁.root) := atRoot_eq_iff

theorem fetch_eq_iff {r : Except Failure Outcome} : g.fetch = (r, g₁) ↔
    g₁.fetcher = g.fetcher ∧ g.fetcher.fetch g.root = (r, g₁.root) := atRoot_eq_iff

end AtRoot

/-! ## Calls -/

/-- What a graph becomes by calls, also by those that fail. -/
inductive Called (g : Graph) : Graph → Prop where
  | refl : Called g g
  | prepareRoot {g₁ : Graph} (h : Called g g₁) : Called g g₁.prepareRoot.2
  | fetch {g₁ : Graph} (h : Called g g₁) : Called g g₁.fetch.2
  | reset {g₁ : Graph} (h : Called g g₁) : Called g g₁.reset

/-- The root is within its bounds, and there are enough steps for it. -/
structure Ample (g : Graph) : Prop where
  bounded : Bounded g.fetcher.registry g.root
  enough : turns g.fetcher.registry g.root ≤ g.fetcher.steps

variable {g g₁ : Graph}

/-- The graph of a tree without cursors. -/
theorem ample_ofRoot {root : Node} (h : root.Idle) (registry : Registry) (combination : Combination)
    (batchSize : Nat) : (ofRoot registry combination batchSize root).Ample :=
  ⟨h.bounded registry, Nat.le_refl _⟩

theorem Ample.of_level {root : Node} (h : g.Ample) (hl : Level g.fetcher.registry root g.root)
    (hb : Bounded g.fetcher.registry root) : Ample { g with root } :=
  ⟨hb, (Nat.le_of_eq hl.turns_eq).trans h.enough⟩

/-- **A fetch from the root** is not cut short, and takes from what is left unless it is the last. -/
theorem Ample.spent (h : g.Ample) :
    Fetcher.Spent g.fetcher.registry g.root (g.fetcher.fetch g.root) :=
  Fetcher.ends_fetchWithin g.fetcher g.root.height g.root h.bounded (Nat.le_refl _) h.enough

theorem Ample.prepareRoot (h : g.Ample) : g.prepareRoot.2.Ample := by
  obtain ⟨hl, hb, -⟩ := Fetcher.bounded_openCursor none h.bounded
  exact h.of_level hl hb

theorem Ample.fetch (h : g.Ample) : g.fetch.2.Ample := h.of_level h.spent.level h.spent.bounded

theorem Ample.reset (h : g.Ample) : g.reset.Ample :=
  h.of_level ((alike_reset g.root).level _) ((idle_reset g.root).bounded _)

/-- **Whatever is called**, the root stays within its bounds. -/
theorem Called.ample (h : Called g g₁) (hg : g.Ample) : g₁.Ample ∧ g₁.fetcher = g.fetcher := by
  induction h with
  | refl => exact ⟨hg, rfl⟩
  | prepareRoot _ ih => exact ⟨ih.1.prepareRoot, ih.2⟩
  | fetch _ ih => exact ⟨ih.1.fetch, ih.2⟩
  | reset _ ih => exact ⟨ih.1.reset, ih.2⟩

/-! ## Fetching ends -/

/-- The graph after some number of fetches, whatever they give. -/
def afterFetches : Nat → Graph → Graph
  | 0, g => g
  | k + 1, g => afterFetches k g.fetch.2

/-- The root is exhausted or fails at the next fetch. -/
def Ended (g : Graph) : Prop := g.fetch.1 = .ok .exhausted ∨ ∃ f, g.fetch.1 = .error f

theorem Ample.ne_unfinished (h : g.Ample) : g.fetch.1 ≠ .ok .unfinished := h.spent.finished

/-- A fetch that is not the last takes from what is left. -/
theorem Ample.ended_or_left_lt (h : g.Ample) : g.Ended ∨
    left g.fetcher.registry g.fetch.2.root < left g.fetcher.registry g.root := by
  rcases hf : g.fetch.1 with f | o
  · exact .inl (.inr ⟨f, hf⟩)
  · by_cases ho : o = .exhausted
    · exact .inl (.inl (ho ▸ hf))
    · exact .inr (h.spent.less o hf ho).2

/-- The bound of the graph is at least what is left. -/
theorem Ample.left_le (h : g.Ample) : left g.fetcher.registry g.root ≤ g.fetcher.steps :=
  h.bounded.left_le.trans h.enough

/-- **The root is exhausted or fails** after no more fetches than its bound. -/
theorem Ample.exists_ended (h : g.Ample) : ∃ k, k ≤ g.fetcher.steps ∧ (g.afterFetches k).Ended := by
  suffices hw : ∀ bound (g : Graph), g.Ample → left g.fetcher.registry g.root ≤ bound →
      ∃ k, k ≤ bound ∧ (g.afterFetches k).Ended from
    hw _ g h h.left_le
  intro bound
  induction bound with
  | zero =>
    intro g h hle
    exact ⟨0, Nat.le_refl 0, h.ended_or_left_lt.resolve_right (by omega)⟩
  | succ bound ih =>
    intro g h hle
    rcases h.ended_or_left_lt with hended | hlt
    · exact ⟨0, Nat.zero_le _, hended⟩
    · obtain ⟨k, hk, hended⟩ := ih g.fetch.2 h.fetch (Nat.le_of_lt_succ (Nat.lt_of_lt_of_le hlt hle))
      exact ⟨k + 1, Nat.succ_le_succ hk, hended⟩

/-- **A fetch does not depend on its bounds**, where they are at least those of the graph. -/
theorem Ample.fetchWithin_eq (h : g.Ample) {steps height : Nat} (hs : g.fetcher.steps ≤ steps)
    (hh : g.root.height ≤ height) :
    (g.fetcher.withSteps steps).fetchWithin height g.root = g.fetcher.fetch g.root :=
  Fetcher.fetchWithin_withSteps hs h.bounded (Nat.le_refl _) hh h.enough

/-! ## Drains -/

/-- The first fetch of a drain is the last, or takes from what is left. -/
theorem Ample.drainWithin_succ (h : g.Ample) :
    (∃ run, run.ending ≠ .unfinished ∧ ∀ fetches, g.drainWithin (fetches + 1) = run) ∨
    left g.fetcher.registry g.fetch.2.root < left g.fetcher.registry g.root ∧
      ∃ grow : Run → Run, (∀ run, (grow run).ending = run.ending) ∧
        ∀ fetches, g.drainWithin (fetches + 1) = grow (g.fetch.2.drainWithin fetches) := by
  have hless := h.ended_or_left_lt
  have hfinished := h.ne_unfinished
  simp only [Ended, drainWithin] at hless hfinished ⊢
  generalize g.fetch = fetched at hless hfinished ⊢
  obtain ⟨f | batch | _ | _ | _, g₁⟩ := fetched
  · exact .inl ⟨_, by simp, fun _ => rfl⟩
  · exact .inr ⟨by simpa using hless, (·.push batch), fun _ => rfl, fun _ => rfl⟩
  · exact .inr ⟨by simpa using hless, Run.poll, fun _ => rfl, fun _ => rfl⟩
  · exact .inl ⟨_, by simp, fun _ => rfl⟩
  · exact absurd rfl hfinished

/-- **A drain ends**, and comes to the same with any bound that is more than what is left. -/
theorem Ample.exists_drainWithin (h : g.Ample) : ∃ run, run.ending ≠ .unfinished ∧
    ∀ fetches, left g.fetcher.registry g.root < fetches → g.drainWithin fetches = run := by
  suffices hw : ∀ bound (g : Graph), g.Ample → left g.fetcher.registry g.root < bound →
      ∃ run, run.ending ≠ .unfinished ∧
        ∀ fetches, left g.fetcher.registry g.root < fetches → g.drainWithin fetches = run from
    hw _ g h (Nat.lt_succ_self _)
  intro bound
  induction bound with
  | zero => exact fun _ _ hlt => absurd hlt (Nat.not_lt_zero _)
  | succ bound ih =>
    intro g h hlt
    rcases h.drainWithin_succ with ⟨run, hne, hrun⟩ | ⟨hless, grow, hgrow, hstep⟩
    · refine ⟨run, hne, fun fetches hf => ?_⟩
      obtain ⟨fetches, rfl⟩ := Nat.exists_eq_add_one.mpr (Nat.zero_lt_of_lt hf)
      exact hrun fetches
    · obtain ⟨run, hne, hrun⟩ := ih g.fetch.2 h.fetch (Nat.lt_of_lt_of_le hless (Nat.le_of_lt_succ hlt))
      refine ⟨grow run, (hgrow run).trans_ne hne, fun fetches hf => ?_⟩
      obtain ⟨fetches, rfl⟩ := Nat.exists_eq_add_one.mpr (Nat.zero_lt_of_lt hf)
      rw [hstep, hrun fetches (Nat.lt_of_lt_of_le hless (Nat.le_of_lt_succ hf))]

theorem Ample.drainWithin_eq {fetches : Nat} (h : g.Ample) (hlt : g.fetcher.steps < fetches) :
    g.drainWithin fetches = g.drain := by
  obtain ⟨run, -, hrun⟩ := h.exists_drainWithin
  exact (hrun _ (h.left_le.trans_lt hlt)).trans (hrun _ (Nat.lt_succ_of_le h.left_le)).symm

theorem Ample.ending_drain_ne (h : g.Ample) : g.drain.ending ≠ .unfinished := by
  obtain ⟨run, hne, hrun⟩ := h.exists_drainWithin
  rwa [drain, hrun _ (Nat.lt_succ_of_le h.left_le)]

/-! ## Termination -/

/-- **Fetching terminates**, and the bounds of the graph do not show. -/
structure Terminates (g : Graph) : Prop where
  /-- A fetch comes to what it comes to with any greater bounds, on each walk and on the height. -/
  fetch : ∀ steps height, g.fetcher.steps ≤ steps → g.root.height ≤ height →
    (g.fetcher.withSteps steps).fetchWithin height g.root = g.fetcher.fetch g.root
  /-- A fetch is not cut short. -/
  finished : g.fetch.1 ≠ .ok .unfinished
  /-- Some number of fetches on, the root is exhausted or fails. -/
  ended : ∃ k, k ≤ g.fetcher.steps ∧ (g.afterFetches k).Ended
  /-- A drain comes to what it comes to with any greater bound. -/
  drain : ∀ fetches, g.fetcher.steps < fetches → g.drainWithin fetches = g.drain
  /-- A drain is exhausted or fails. -/
  drained : g.drain.ending = .exhausted ∨ ∃ f, g.drain.ending = .failed f

theorem Ample.terminates (h : g.Ample) : g.Terminates where
  fetch _ _ := h.fetchWithin_eq
  finished := h.ne_unfinished
  ended := h.exists_ended
  drain _ := h.drainWithin_eq
  drained := Ending.ended_of_ne h.ending_drain_ne

end Graph

end PathQuery
