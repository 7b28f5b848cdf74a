import Mathlib.Tactic.Linarith
import PathQuery.Graph.Bound
import PathQuery.Proofs.Graph.Walk

/-!
# Proofs/Graph/Left — what is left to do for a tree of nodes

`Node.left` counts the documents that a node has yet to pull, each weighed by the steps of the walks that
it can bring about, and the steps that are left for the children that are open.  It is the lexicographic
order of nested cursors in one number: a child that is reset may start over as often as the children
before it, and the node itself, have documents to move on to.

Nothing is asked of the rows.  Where cursors are read at least one document at a time and have no more
documents ahead than their resource has (`Node.Bounded`), what is left never exceeds the turns of the node.
-/

namespace PathQuery.Node

variable {r : Registry} {n m : Node} {ns ms : List Node} {child child' : Node} {i : Nat}

/-! ## Bounds of a tree -/

theorem turns_blank (r : Registry) (n : Node) : turns r n.blank = turns r n := by
  induction n using Node.induction with
  | node n ih =>
    rw [blank_eq, turns_eq, turns_eq]
    refine congrArg _ ?_
    have hall : ∀ ns : List Node, (∀ child ∈ ns, turns r child.blank = turns r child) →
        steps r (ns.map blank) = steps r ns := by
      intro ns
      induction ns with
      | nil => exact fun _ => rfl
      | cons child rest ihr =>
        intro h
        rw [List.map_cons, steps, steps, h child (.head _), ihr fun c hc => h c (.tail _ hc)]
    exact hall n.children ih

/-- The bounds are those of the blank tree. -/
theorem Alike.turns_eq (h : n.Alike m) (r : Registry) : turns r n = turns r m := by
  rw [← turns_blank r n, ← turns_blank r m, h]

theorem steps_congr (h : ns.map (turns r) = ms.map (turns r)) : steps r ns = steps r ms := by
  induction ns generalizing ms with
  | nil => rw [List.map_eq_nil_iff.mp h.symm]
  | cons first rest ih =>
    cases ms with
    | nil => obtain ⟨⟩ := h
    | cons first' rest' =>
      rw [List.map_cons, List.map_cons, List.cons.injEq] at h
      rw [steps, steps, h.1, ih h.2]

theorem heightOf_congr (h : ns.map height = ms.map height) : heightOf ns = heightOf ms := by
  induction ns generalizing ms with
  | nil => rw [List.map_eq_nil_iff.mp h.symm]
  | cons first rest ih =>
    cases ms with
    | nil => obtain ⟨⟩ := h
    | cons first' rest' =>
      rw [List.map_cons, List.map_cons, List.cons.injEq] at h
      rw [heightOf, heightOf, h.1, ih h.2]

theorem turns_le_steps (h : child ∈ ns) : turns r child ≤ steps r ns := by
  induction ns with
  | nil => obtain ⟨⟩ := h
  | cons first rest ih =>
    rw [steps]
    have hrest := steps_pos r rest
    rcases List.mem_cons.mp h with rfl | h
    · nlinarith
    · nlinarith [ih h]

theorem turns_child_le (h : child ∈ n.children) : turns r child ≤ turns r n :=
  (turns_le_steps h).trans (steps_le_turns r n)

/-! ## States of one tree with the same bounds -/

/-- Two states of one tree, as far as its bounds go. -/
structure Level (r : Registry) (n m : Node) : Prop where
  plan_eq : n.plan = m.plan
  turns_children : n.children.map (turns r) = m.children.map (turns r)
  height_children : n.children.map height = m.children.map height

theorem Level.refl (r : Registry) (n : Node) : Level r n n := ⟨rfl, rfl, rfl⟩

theorem Level.trans {k : Node} (h : Level r n m) (h' : Level r m k) : Level r n k :=
  ⟨h.plan_eq.trans h'.plan_eq, h.turns_children.trans h'.turns_children,
    h.height_children.trans h'.height_children⟩

theorem Level.steps_eq (h : Level r n m) : steps r n.children = steps r m.children :=
  steps_congr h.turns_children

theorem Level.turns_eq (h : Level r n m) : turns r n = turns r m := by
  rw [Node.turns_eq, Node.turns_eq, h.plan_eq, h.steps_eq]

theorem Level.height_eq (h : Level r n m) : n.height = m.height := by
  rw [Node.height_eq, Node.height_eq, heightOf_congr h.height_children]

theorem Level.length_eq (h : Level r n m) : n.children.length = m.children.length := by
  simpa using congrArg List.length h.turns_children

theorem Level.isLeaf_eq (h : Level r n m) : n.isLeaf = m.isLeaf := by
  rw [isLeaf, isLeaf, Bool.eq_iff_iff, List.isEmpty_iff_length_eq_zero, h.length_eq,
    List.isEmpty_iff_length_eq_zero]

theorem Alike.level (h : n.Alike m) (r : Registry) : Level r n m := by
  have hmap : ∀ {β : Type} (g : Node → β), (∀ a b : Node, a.Alike b → g a = g b) →
      n.children.map g = m.children.map g := fun g hg => by
    refine List.ext_getElem? fun j => ?_
    rw [List.getElem?_map, List.getElem?_map]
    cases hj : n.children[j]? with
    | none =>
      have hlen := h.length_eq ▸ List.getElem?_eq_none_iff.mp hj
      rw [List.getElem?_eq_none_iff.mpr hlen]
    | some child =>
      obtain ⟨child', hj', ha⟩ := h.exists_child hj
      rw [hj', Option.map_some, Option.map_some, hg _ _ ha]
  exact ⟨h.plan_eq, hmap _ fun _ _ ha => ha.turns_eq r, hmap _ fun _ _ ha => ha.height_eq⟩

theorem level_setChild (hc : n.children[i]? = some child) (h : Level r child' child) :
    Level r (n.setChild i child') n := by
  have hmap : ∀ {β : Type} (g : Node → β), g child' = g child →
      (n.children.set i child').map g = n.children.map g := fun g hg => by
    obtain ⟨hi, rfl⟩ := List.getElem?_eq_some_iff.mp hc
    rw [List.map_set, hg, ← List.map_set, List.set_getElem_self]
  exact ⟨rfl, hmap _ h.turns_eq, hmap _ h.height_eq⟩

/-! ## What is left -/

mutual

/-- A bound on the fetches from a node before it is exhausted. -/
def left (r : Registry) : Node → Nat
  | ⟨_, progress, children⟩ =>
    (progress.cursor.map (·.cursor.ahead.length)).getD 0 * steps r children +
      leftOf r (min progress.childResults.length (children.length - 1) + 1) children

/-- A bound on the steps of a walk that stands behind some number of children. -/
def leftOf (r : Registry) : Nat → List Node → Nat
  | 0, _ => 0
  | _ + 1, [] => 0
  | count + 1, child :: rest =>
    1 + (if child.progress.cursor.isNone then turns r child else left r child) * (1 + steps r rest) +
      leftOf r count rest

end

/-- A bound on the fetches from a node, which may have to be opened first. -/
def budget (r : Registry) (n : Node) : Nat :=
  if n.progress.cursor.isNone then turns r n else left r n

/-- The number of documents that a node has yet to pull. -/
def unread (n : Node) : Nat := (n.progress.cursor.map (·.cursor.ahead.length)).getD 0

theorem leftOf_cons (count : Nat) (child : Node) (rest : List Node) :
    leftOf r (count + 1) (child :: rest) =
      1 + budget r child * (1 + steps r rest) + leftOf r count rest := by
  rw [leftOf, budget]

theorem left_eq (r : Registry) (n : Node) :
    left r n = n.unread * steps r n.children + leftOf r (Fetcher.start n + 1) n.children := by
  obtain ⟨plan, progress, children⟩ := n
  rw [left, Fetcher.start, unread]

@[simp] theorem leftOf_nil (count : Nat) : leftOf r count [] = 0 := by cases count <;> rw [leftOf]

@[simp] theorem leftOf_zero (ns : List Node) : leftOf r 0 ns = 0 := by rw [leftOf]

theorem left_of_isLeaf (hl : n.isLeaf = true) (r : Registry) : left r n = n.unread := by
  rw [left_eq, List.isEmpty_iff.mp hl, leftOf_nil, Node.steps]
  omega

theorem budget_of_none (h : n.progress.cursor = none) : budget r n = turns r n := by
  rw [budget, h]
  rfl

theorem budget_of_ne_none (h : n.progress.cursor ≠ none) : budget r n = left r n := by
  rw [budget, if_neg (by rwa [Option.isNone_iff_eq_none])]

/-- Behind one more child there is its share on top. -/
theorem leftOf_succ {count : Nat} (h : ns[count]? = some child) :
    leftOf r (count + 1) ns =
      leftOf r count ns + (1 + budget r child * (1 + steps r (ns.drop (count + 1)))) := by
  induction ns generalizing count with
  | nil => obtain ⟨⟩ := h
  | cons first rest ih =>
    cases count with
    | zero =>
      cases h
      rw [leftOf_cons]
      simp
    | succ count =>
      rw [leftOf_cons, leftOf_cons, ih h, List.drop_succ_cons]
      omega

theorem leftOf_of_length_le {count : Nat} (h : ns.length ≤ count) :
    leftOf r (count + 1) ns = leftOf r count ns := by
  induction ns generalizing count with
  | nil => simp
  | cons first rest ih =>
    obtain ⟨count, rfl⟩ := Nat.exists_eq_add_of_lt (Nat.lt_of_lt_of_le (Nat.succ_pos _) h)
    simp only [Nat.zero_add]
    rw [leftOf_cons, leftOf_cons, ih (by simpa using h)]

theorem leftOf_mono (r : Registry) (ns : List Node) {count count' : Nat} (h : count ≤ count') :
    leftOf r count ns ≤ leftOf r count' ns := by
  induction h with
  | refl => exact Nat.le_refl _
  | step _ ih =>
    refine ih.trans ?_
    rename_i k _
    cases hc : ns[k]? with
    | none => exact Nat.le_of_eq (leftOf_of_length_le (List.getElem?_eq_none_iff.mp hc)).symm
    | some child =>
      rw [leftOf_succ hc]
      omega

/-- What is left behind some children depends on these and on the bounds of the others. -/
theorem leftOf_congr {count : Nat} (hb : ns.map (turns r) = ms.map (turns r))
    (h : ∀ j, j < count → ns[j]? = ms[j]?) : leftOf r count ns = leftOf r count ms := by
  induction ns generalizing ms count with
  | nil => rw [List.map_eq_nil_iff.mp hb.symm]
  | cons first rest ih =>
    cases ms with
    | nil => obtain ⟨⟩ := hb
    | cons first' rest' =>
      cases count with
      | zero => rw [leftOf_zero, leftOf_zero]
      | succ count =>
        have hfirst : first = first' := by simpa using h 0 (Nat.succ_pos _)
        rw [List.map_cons, List.map_cons, List.cons.injEq] at hb
        rw [leftOf_cons, leftOf_cons, hfirst, steps_congr hb.2,
          ih hb.2 fun j hj => by simpa using h (j + 1) (Nat.succ_lt_succ hj)]

theorem share_le {t b B : Nat} (hb : b ≤ t) (hB : 0 < B) :
    1 + b * (1 + B) + B ≤ (2 * t + 2) * B := by
  have : b * (1 + B) ≤ t * (1 + B) := Nat.mul_le_mul_right _ hb
  nlinarith

/-! ## Trees within their bounds -/

/-- Cursors are read at least one document at a time, and have no more documents ahead than the resource
of their node has. -/
inductive Bounded (r : Registry) : Node → Prop where
  | node {n : Node} (own : ∀ b, n.progress.cursor = some b → 0 < b.batchSize ∧
      b.cursor.ahead.length ≤ supply r n.plan.request)
    (below : ∀ child ∈ n.children, Bounded r child) : Bounded r n

theorem Bounded.own (h : Bounded r n) {b : BatchCursor} (hb : n.progress.cursor = some b) :
    0 < b.batchSize ∧ b.cursor.ahead.length ≤ supply r n.plan.request := by
  cases h with
  | node own => exact own b hb

theorem Bounded.of_mem (h : Bounded r n) (hc : child ∈ n.children) : Bounded r child := by
  cases h with
  | node _ below => exact below child hc

/-- A node with the cursor and the children of a bounded one is bounded. -/
theorem Bounded.congr (h : Bounded r n) (hp : m.plan = n.plan)
    (hb : m.progress.cursor = n.progress.cursor) (hc : m.children = n.children) : Bounded r m :=
  .node (fun _ hm => hp ▸ h.own (hb ▸ hm)) fun _ hm => h.of_mem (hc ▸ hm)

theorem Bounded.setChild (h : Bounded r n) (hc : Bounded r child') : Bounded r (n.setChild i child') := by
  refine .node (fun b hb => h.own hb) fun child hm => ?_
  rcases List.mem_or_eq_of_mem_set hm with hm | rfl
  · exact h.of_mem hm
  · exact hc

theorem Idle.bounded (h : n.Idle) (r : Registry) : Bounded r n := by
  induction n using Node.induction with
  | node n ih =>
    exact .node (fun b hb => nomatch h.cursor.symm.trans hb) fun child hc => ih child hc (h.child hc)

theorem Bounded.unread_le (h : Bounded r n) : n.unread ≤ supply r n.plan.request := by
  rw [unread]
  cases hb : n.progress.cursor with
  | none => exact Nat.zero_le _
  | some b => exact (h.own hb).2

/-- A walk behind some children has no more steps left than a walk over all of them has. -/
theorem leftOf_le (count : Nat) (h : ∀ child ∈ ns, budget r child ≤ turns r child) :
    leftOf r count ns + steps r (ns.drop count) ≤ steps r ns := by
  induction ns generalizing count with
  | nil => simp
  | cons first rest ih =>
    cases count with
    | zero => rw [leftOf_zero]; simp
    | succ count =>
      rw [leftOf_cons, List.drop_succ_cons, steps]
      have hrest := ih count fun c hc => h c (.tail _ hc)
      have := share_le (h first (.head _)) (steps_pos r rest)
      omega

/-- **What is left of a bounded node is no more than its turns.** -/
theorem Bounded.left_le (h : Bounded r n) : left r n ≤ turns r n := by
  induction n using Node.induction with
  | node n ih =>
    have hle := leftOf_le (r := r) (Fetcher.start n + 1) fun child hc => by
      rw [budget]
      split
      · exact Nat.le_refl _
      · exact ih child hc (h.of_mem hc)
    have hpos := steps_pos r (n.children.drop (Fetcher.start n + 1))
    have hlen := h.unread_le
    rw [left_eq, turns_eq]
    nlinarith

theorem Bounded.budget_le (h : Bounded r n) : budget r n ≤ turns r n := by
  rw [budget]
  split
  · exact Nat.le_refl _
  · exact h.left_le

/-- A child adds less than the steps of a walk over it and the children after it. -/
theorem leftOf_succ_le (ns : List Node) (count : Nat)
    (h : ∀ child, ns[count]? = some child → Bounded r child) :
    leftOf r (count + 1) ns + 1 ≤ leftOf r count ns + steps r (ns.drop count) := by
  have hpos := steps_pos r (ns.drop count)
  cases hc : ns[count]? with
  | none =>
    rw [leftOf_of_length_le (List.getElem?_eq_none_iff.mp hc)]
    omega
  | some child =>
    have hdrop : ns.drop count = child :: ns.drop (count + 1) := by
      obtain ⟨hlt, rfl⟩ := List.getElem?_eq_some_iff.mp hc
      exact List.drop_eq_getElem_cons hlt
    rw [leftOf_succ hc, hdrop, Node.steps]
    have hB := steps_pos r (ns.drop (count + 1))
    have := share_le (h child hc).budget_le hB
    omega

/-- The bound on the steps of a walk is large enough. -/
theorem Bounded.leftOf_lt (h : Bounded r n) (count : Nat) : leftOf r count n.children < turns r n := by
  have hle := leftOf_le (r := r) count fun child hc => (h.of_mem hc).budget_le
  have hpos := steps_pos r (n.children.drop count)
  have := steps_le_turns r n
  omega

/-! ## Idle and active nodes -/

variable {f : Fetcher} {values : Option (List Value)}

theorem Open.length_ahead_le {past batch ahead : List Document}
    (h : n.Open f values past batch ahead) :
    ahead.length ≤ supply f.registry n.plan.request := by
  obtain ⟨docs, hdocs, hsplit⟩ := h.source
  have hlen : (past ++ batch ++ ahead).length ≤ docs.length := by
    rw [hsplit]
    exact List.length_filter_le _ _
  simp only [List.length_append] at hlen
  simp only [supply, hdocs]
  omega

theorem Active.bounded (h : Active f values n) : Bounded f.registry n := by
  induction n using Node.induction generalizing values with
  | node n ih =>
    obtain ⟨past, batch, ahead, ho⟩ := h.exists_open
    refine .node (fun b hb => ?_) fun child hc => ?_
    · obtain ⟨hsize, hg⟩ := ho.gives hb
      exact ⟨by omega, hg.ahead_eq ▸ ho.length_ahead_le⟩
    · by_cases hidle : child.Idle
      · exact hidle.bounded _
      · obtain ⟨i, hi⟩ := List.mem_iff_getElem?.mp hc
        obtain ⟨-, vals, -, ha⟩ := h.exists_vals hi hidle
        exact ih child hc ha

end PathQuery.Node
