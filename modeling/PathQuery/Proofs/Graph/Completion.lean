import PathQuery.Proofs.Graph.Calls
import PathQuery.Proofs.Graph.Run

/-!
# Proofs/Graph/Completion — what a node that counts as complete may still owe

A walk passes over a child that is complete together with its children.  That asks for the cursors of two
levels, and a tree may be deeper: such a child is drained exactly if the nodes further down are
(`drained_iff_of_joinedStatus`).  A drained child owes nothing, so passing over it comes to what fetching from
it comes to (`drained_iff_of_called`); a child with children that are no leaves can be passed over too early
(`exists_not_drained`).
-/

namespace PathQuery

namespace Node

variable {n child : Node} {r : Registry}

/-! ## Drained trees -/

/-- A node holds a cursor that has given its last document. -/
def Finished (n : Node) : Prop := ∃ b, n.progress.cursor = some b ∧ b.hasMore = false

/-- A node and all nodes below it hold cursors that have given their last documents. -/
def Drained (n : Node) : Prop := ∀ m ∈ n.all, m.Finished

theorem status_eq_complete_iff : n.status = .complete ↔ n.Finished := by
  rw [status, Finished]
  cases n.progress.cursor with
  | none => simp
  | some b => cases b.hasMore <;> simp

/-- A node counts as complete exactly if it and its children have given their last documents. -/
theorem joinedStatus_eq_complete_iff :
    n.joinedStatus = .complete ↔ n.Finished ∧ ∀ child ∈ n.children, child.Finished := by
  simp only [← status_eq_complete_iff]
  rw [joinedStatus]
  split
  · rename_i h
    obtain ⟨child, hc, hne⟩ := List.any_eq_true.mp h.2
    exact ⟨by rintro ⟨⟩, fun hall => absurd (hall.2 child hc) (of_decide_eq_true hne)⟩
  · rename_i h
    refine ⟨fun hs => ⟨hs, fun child hc => ?_⟩, And.left⟩
    by_contra hne
    exact h ⟨hs, List.any_eq_true.mpr ⟨child, hc, decide_eq_true hne⟩⟩

theorem drained_iff : n.Drained ↔ n.Finished ∧ ∀ child ∈ n.children, child.Drained := forall_mem_all

theorem Drained.below (h : n.Drained) (hc : child ∈ n.children) : child.Drained :=
  (drained_iff.mp h).2 child hc

theorem Drained.finished (h : n.Drained) : n.Finished := (drained_iff.mp h).1

/-- A drained node counts as complete. -/
theorem Drained.joinedStatus (h : n.Drained) : n.joinedStatus = .complete :=
  joinedStatus_eq_complete_iff.mpr ⟨h.finished, fun _ hc => (h.below hc).finished⟩

/-- A node that counts as complete is drained exactly if all nodes are that are two levels below it. -/
theorem drained_iff_of_joinedStatus (h : n.joinedStatus = .complete) :
    n.Drained ↔ ∀ child ∈ n.children, ∀ below ∈ child.children, below.Drained := by
  obtain ⟨hn, hchildren⟩ := joinedStatus_eq_complete_iff.mp h
  rw [drained_iff, and_iff_right hn]
  exact forall₂_congr fun child hc => by rw [drained_iff, and_iff_right (hchildren child hc)]

/-- Where the children are leaves there is nothing further down. -/
theorem drained_of_height_le (h : n.joinedStatus = .complete) (hh : n.height ≤ 2) : n.Drained := by
  refine (drained_iff_of_joinedStatus h).mpr fun child hc below hb => ?_
  have hlt := height_lt_of_mem hc
  rw [children_of_height_le (n := child) (by omega)] at hb
  obtain ⟨⟩ := hb

/-! ## Bounds of the nodes of a tree -/

/-- A walk may take a step for each child. -/
theorem length_le_steps (r : Registry) (ns : List Node) : ns.length ≤ steps r ns := by
  induction ns with
  | nil => exact Nat.zero_le _
  | cons first rest ih =>
    have hpos := steps_pos r rest
    rw [List.length_cons, steps]
    nlinarith

/-- No node of a tree takes more turns than its root. -/
theorem turns_le_of_mem_all {root : Node} (h : n ∈ root.all) : turns r n ≤ turns r root := by
  induction root using Node.induction with
  | node root ih =>
    rw [all_eq, List.mem_cons, List.mem_flatMap] at h
    rcases h with rfl | ⟨child, hc, hm⟩
    · exact Nat.le_refl _
    · exact (ih child hc hm).trans (turns_child_le hc)

/-! ## Resetting what was reset -/

theorem reset_eq (n : Node) :
    n.reset = ⟨n.plan, { n.progress with cursor := none, childResults := [] }, n.children.map reset⟩ := by
  obtain ⟨plan, progress, children⟩ := n
  rw [reset, resetOf_eq]

/-- Resetting a node resets what is left of the children that were retired before. -/
theorem reset_retired {i : Nat} (hc : n.children[i]? = some child) :
    ((n.setChild i child.reset).keepBefore i).reset = n.reset := by
  have hmap : (n.children.set i child.reset).map reset = n.children.map reset := by
    refine List.ext_getElem? fun j => ?_
    rw [List.getElem?_map, List.getElem?_map]
    by_cases hij : i = j
    · subst hij
      rw [List.getElem?_set_self (List.getElem?_eq_some_iff.mp hc).1, hc]
      exact congrArg some (idle_reset child)
    · rw [List.getElem?_set_ne hij]
  rw [reset_eq, reset_eq n, keepBefore, setChild, hmap]

end Node

namespace Fetcher

open Node

variable {f : Fetcher} {n child : Node}

/-! ## Fetching from drained nodes -/

/-- A walk goes back over drained children, and does not fetch from them. -/
theorem walk_drained (f : Fetcher) (fetch : Node → Except Failure Outcome × Node) {steps i : Nat}
    (hi : i < n.children.length) (hs : i < steps)
    (h : ∀ j child, j ≤ i → n.children[j]? = some child → child.Drained) :
    ∃ m, f.walk fetch steps i n = (.ok .exhausted, m) ∧ m.reset = n.reset := by
  induction i generalizing n steps with
  | zero =>
    obtain ⟨steps, rfl⟩ := Nat.exists_eq_add_one.mpr hs
    have hc := List.getElem?_eq_getElem hi
    have hdrained := h 0 _ (Nat.le_refl 0) hc
    refine ⟨_, ?_, reset_retired hc⟩
    rw [walk, hc]
    simp only [turn, hdrained.joinedStatus]
  | succ i ih =>
    obtain ⟨steps, rfl⟩ := Nat.exists_eq_add_one.mpr (Nat.zero_lt_of_lt hs)
    have hc := List.getElem?_eq_getElem hi
    have hdrained := h (i + 1) _ (Nat.le_refl _) hc
    have hlt : i < ((n.setChild (i + 1) n.children[i + 1].reset).keepBefore (i + 1)).children.length := by
      rw [keepBefore, setChild, List.length_set]
      omega
    -- the child that was retired stands behind those that the walk goes on to
    obtain ⟨m, hm, hreset⟩ := ih hlt (Nat.lt_of_succ_lt_succ hs) fun j child hj hjc =>
      h j child (by omega) ((getElem?_setChild_of_ne (by omega) n _).symm.trans hjc)
    refine ⟨m, ?_, hreset.trans (reset_retired hc)⟩
    rw [walk, hc]
    simp only [turn, hdrained.joinedStatus]
    exact hm

/-- A fetch from a node gives nothing, and leaves what resetting the node leaves. -/
def OwesNothing (f : Fetcher) (n : Node) : Prop :=
  (f.fetch n).1 = .ok .exhausted ∧ (f.fetch n).2.reset = n.reset

/-- **A drained node owes nothing.** -/
theorem owesNothing_of_drained (hs : n.children.length ≤ f.steps) (h : n.Drained) : f.OwesNothing n := by
  obtain ⟨b, hb, hmore⟩ := h.finished
  rw [OwesNothing, Fetcher.fetch, height_eq]
  cases hl : n.isLeaf with
  | true =>
    rw [fetchWithin_leaf hl hb]
    simp [fetchLeaf, hmore]
  | false =>
    have hstart := start_lt hl
    obtain ⟨m, hwalk, hreset⟩ := walk_drained f (f.fetchWithin (heightOf n.children)) hstart
      (Nat.lt_of_lt_of_le hstart hs) fun j child _ hc => h.below (List.mem_of_getElem? hc)
    simp only [fetchWithin, hb, hl, hwalk, advance, hmore, Bool.false_eq_true, if_false]
    exact ⟨trivial, (idle_reset m).trans hreset⟩

end Fetcher

namespace Graph

open Node

variable {g g₁ : Graph} {n : Node}

/-! ## Nodes of a run -/

/-- Steps that do not fail are calls. -/
theorem Reached.called (h : g.Reached g₁) : g.Called g₁ := by
  induction h with
  | refl => exact .refl
  | prepareRoot _ hp ih =>
    have := ih.prepareRoot
    rwa [hp] at this
  | fetch _ hf ih =>
    have := ih.fetch
    rwa [hf] at this
  | reset _ ih => exact ih.reset

/-- After any calls a drained node owes nothing. -/
theorem Called.owesNothing (hr : g.Called g₁) (hb : g.Built) (hn : n ∈ g₁.root.all) (h : n.Drained) :
    g₁.fetcher.OwesNothing n := by
  have hample := (hr.ample hb.sound.ample).1
  refine Fetcher.owesNothing_of_drained ?_ h
  calc n.children.length ≤ steps g₁.fetcher.registry n.children := length_le_steps _ _
    _ ≤ turns g₁.fetcher.registry n := steps_le_turns _ n
    _ ≤ turns g₁.fetcher.registry g₁.root := turns_le_of_mem_all hn
    _ ≤ g₁.fetcher.steps := hample.enough

/-- **A node that counts as complete**, after any calls, is drained and owes nothing exactly if the nodes two
levels below it are drained, and so always where its children are leaves. -/
theorem drained_iff_of_called (hb : g.Built) (hr : g.Called g₁) (hn : n ∈ g₁.root.all)
    (hs : n.joinedStatus = .complete) :
    (n.Drained ∧ g₁.fetcher.OwesNothing n ↔ ∀ child ∈ n.children, ∀ below ∈ child.children, below.Drained) ∧
    (n.height ≤ 2 → n.Drained ∧ g₁.fetcher.OwesNothing n) := by
  have howes := hr.owesNothing hb hn
  refine ⟨⟨fun h => (drained_iff_of_joinedStatus hs).mp h.1, fun h => ?_⟩, fun hh => ?_⟩
  · have hdrained := (drained_iff_of_joinedStatus hs).mpr h
    exact ⟨hdrained, howes hdrained⟩
  · have hdrained := drained_of_height_le hs hh
    exact ⟨hdrained, howes hdrained⟩

namespace Shop

/-- An order of a customer in a region with two depots. -/
def stocked : Store := ⟨.memory, [
  ("Entities", [entity "Order" "Orders" [("customer", "Customer", "buyer")],
    entity "Customer" "Customers" [("region", "Region", "area")],
    [("description", .object [("shortName", .string "Region"), ("defaultResourceName", .string "Regions"),
      ("key", .object [("propertyRef", .object [("name", .string "id")])]),
      ("dataProperties", .array [.object [("name", .string "id"), ("dataType", .string "Int64")]]),
      ("navigationProperties", .array [.object [("name", .string "depots"),
        ("entityTypeName", .string "Depot"), ("isScalar", .bool false),
        ("invForeignKeyNames", .array [.string "region"])]])])],
    entity "Depot" "Depots" []]),
  ("Orders", [[("id", .int 1), ("buyer", .int 1)]]),
  ("Customers", [[("id", .int 1), ("area", .int 7)]]),
  ("Regions", [[("id", .int 7)]]),
  ("Depots", [[("id", .int 21), ("region", .int 7)], [("id", .int 22), ("region", .int 7)]])]⟩

/-- The orders with the depots of their customers' regions, one document at a time, if a test holds after
the first batch. -/
theorem exists_stocked (field : String) (test : Graph → Bool)
    (h : (Node.ofQuery? (catalog stocked) "Orders" [⟨field, .compare .ge, "0"⟩] []).1.toOption.any (fun root =>
      (ofRoot (registry stocked) .projection 1 root).firstBatch?.any fun found => test found.2.2) = true) :
    ∃ g g₂ : Graph, g.Built ∧ g.Reached g₂ ∧ test g₂ = true := by
  obtain ⟨root, after, g₁, g₂, c, hq, hr, hf, htest⟩ := exists_first stocked .projection 1 _ []
    (fun _ _ _ g₂ => test g₂) h
  exact ⟨_, g₂, .ofRoot (.ofConfig _ _) hq _ _ _, hr.fetch hf, htest⟩

/-- Whether a fetch says that everything was given. -/
def isExhausted : Except Failure Outcome → Bool
  | .ok .exhausted => true
  | _ => false

theorem eq_exhausted_of_isExhausted {x : Except Failure Outcome} (h : isExhausted x = true) :
    x = .ok .exhausted := by
  rw [isExhausted.eq_def] at h
  split at h
  · rfl
  · obtain ⟨⟩ := h

end Shop

/-- A customer in its region, without the depots, is drained once it counts as complete, and owes nothing. -/
theorem drained_iff_of_called_regions : ∃ (g g₁ : Graph) (n : Node), g.Built ∧ g.Called g₁ ∧
    n ∈ g₁.root.all ∧ n.joinedStatus = .complete ∧ n.children.length = 1 ∧
    (n.Drained ∧ g₁.fetcher.OwesNothing n ↔ ∀ child ∈ n.children, ∀ below ∈ child.children, below.Drained) ∧
    n.Drained ∧ g₁.fetcher.OwesNothing n := by
  obtain ⟨g, g₁, hb, hr, htest⟩ := Shop.exists_stocked "customer/region/id" (fun g₁ => g₁.root.children.any
    fun n => n.joinedStatus == .complete && n.children.length == 1 && decide (n.height ≤ 2)) (by decide +kernel)
  obtain ⟨n, hn, htest⟩ := List.any_eq_true.mp htest
  simp only [Bool.and_eq_true, beq_iff_eq, decide_eq_true_eq] at htest
  obtain ⟨⟨hs, hlength⟩, hheight⟩ := htest
  have hall : n ∈ g₁.root.all := mem_all_child hn (mem_all_self n)
  obtain ⟨hiff, hleaves⟩ := drained_iff_of_called hb hr.called hall hs
  exact ⟨g, g₁, n, hb, hr.called, hall, hs, hlength, hiff, hleaves hheight⟩

/-- **A node below the children is not asked**: the customer of the small store counts as complete while a
depot of its region is left, so the next fetch ends the run although the customer has more to give. -/
theorem exists_not_drained : ∃ (g g₁ : Graph) (n m : Node) (c : Collection), g.Built ∧ g.Reached g₁ ∧
    n ∈ g₁.root.children ∧ n.joinedStatus = .complete ∧ m ∈ n.all ∧ m.status = .ready ∧ ¬ n.Drained ∧
    g₁.fetch.1 = .ok .exhausted ∧ (g₁.fetcher.fetch n).1 = .ok (.batch c) ∧ c.rows ≠ [] := by
  obtain ⟨g, g₁, hb, hr, htest⟩ := Shop.exists_stocked "customer/region/depots/id" (fun g₁ =>
    Shop.isExhausted g₁.fetch.1 && g₁.root.children.any fun n => n.joinedStatus == .complete &&
      n.all.any (·.status == .ready) && (Shop.given? (g₁.fetcher.fetch n).1).any (!·.rows.isEmpty))
    (by decide +kernel)
  obtain ⟨hended, htest⟩ := Bool.and_eq_true_iff.mp htest
  obtain ⟨n, hn, htest⟩ := List.any_eq_true.mp htest
  simp only [Bool.and_eq_true, beq_iff_eq, List.any_eq_true, Option.any_eq_true] at htest
  obtain ⟨⟨hs, m, hm, hready⟩, c, hc, hrows⟩ := htest
  have hnot : ¬ n.Drained := fun h => by
    rw [status_eq_complete_iff.mpr (h m hm)] at hready
    obtain ⟨⟩ := hready
  exact ⟨g, g₁, n, m, c, hb, hr, hn, hs, hm, hready, hnot, Shop.eq_exhausted_of_isExhausted hended,
    Shop.eq_batch_of_given? hc, by simpa using hrows⟩

end Graph

end PathQuery
