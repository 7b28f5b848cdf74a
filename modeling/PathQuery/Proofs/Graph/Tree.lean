import PathQuery.Graph.Node
import PathQuery.Proofs.Result.Collection

/-!
# Proofs/Graph/Tree — what stays of a tree while it is fetched from

Fetching changes the progress of nodes and nothing else: `blank` is a tree without progress, and two
states of one tree have the same blank tree.  What is fixed when a tree is built depends on the blank tree
alone: which fields rows are found by, and that no two edges from one node have the same name (`Formed`).
-/

namespace PathQuery.Node

/-! ## Trees without progress -/

mutual

/-- The tree without rows, cursors and kept results. -/
def blank : Node → Node
  | ⟨plan, progress, children⟩ => ⟨plan, ⟨progress.results.purge, none, []⟩, blankOf children⟩

/-- `blank` over a list of nodes. -/
def blankOf : List Node → List Node
  | [] => []
  | n :: rest => n.blank :: blankOf rest

end

theorem blankOf_eq (ns : List Node) : blankOf ns = ns.map blank := by
  induction ns with
  | nil => rfl
  | cons n rest ih => simp [blankOf, ih]

theorem blank_eq (n : Node) :
    n.blank = ⟨n.plan, ⟨n.progress.results.purge, none, []⟩, n.children.map blank⟩ := by
  obtain ⟨plan, progress, children⟩ := n
  rw [blank, blankOf_eq]

/-- An induction over nodes, with the children at once. -/
theorem induction {P : Node → Prop} (node : ∀ n : Node, (∀ child ∈ n.children, P child) → P n)
    (n : Node) : P n := by
  suffices h : ∀ height (n : Node), n.height ≤ height → P n from h n.height n (Nat.le_refl _)
  intro height
  induction height with
  | zero => exact fun n hn => absurd (height_eq n ▸ hn) (by omega)
  | succ height ih =>
    exact fun n hn => node n fun child hc =>
      ih child (Nat.le_of_lt_succ (Nat.lt_of_lt_of_le (height_lt_of_mem hc) hn))

/-! ## States of one tree -/

/-- Two states of one tree. -/
def Alike (n m : Node) : Prop := n.blank = m.blank

variable {n m : Node}

theorem alike_iff : n.Alike m ↔ n.plan = m.plan ∧
    n.progress.results.purge = m.progress.results.purge ∧
    n.children.map blank = m.children.map blank := by
  rw [Alike, blank_eq, blank_eq]
  simp

theorem Alike.refl (n : Node) : n.Alike n := rfl

theorem Alike.symm (h : n.Alike m) : m.Alike n := Eq.symm h

theorem Alike.trans {k : Node} (h : n.Alike m) (h' : m.Alike k) : n.Alike k := Eq.trans h h'

theorem Alike.plan_eq (h : n.Alike m) : n.plan = m.plan := (alike_iff.mp h).1

theorem Alike.layout_eq (h : n.Alike m) :
    n.progress.results.layout = m.progress.results.layout := by
  have := congrArg Collection.layout (alike_iff.mp h).2.1
  simpa using this

theorem Alike.length_eq (h : n.Alike m) : n.children.length = m.children.length := by
  have := congrArg List.length (alike_iff.mp h).2.2
  simpa using this

/-- The children of two states are two states of the same children. -/
theorem Alike.child (h : n.Alike m) {i : Nat} {child child' : Node}
    (hc : n.children[i]? = some child) (hc' : m.children[i]? = some child') : child.Alike child' := by
  have := congrArg (·[i]?) (alike_iff.mp h).2.2
  simpa [hc, hc', Alike] using this

theorem Alike.exists_child (h : n.Alike m) {i : Nat} {child : Node}
    (hc : n.children[i]? = some child) : ∃ child', m.children[i]? = some child' ∧ child.Alike child' := by
  have hi : i < m.children.length := h.length_eq ▸ (List.getElem?_eq_some_iff.mp hc).1
  have hget : m.children[i]? = some m.children[i] := List.getElem?_eq_getElem hi
  exact ⟨_, hget, h.child hc hget⟩

theorem Alike.exists_mem (h : n.Alike m) {child : Node} (hc : child ∈ n.children) :
    ∃ child' ∈ m.children, child.Alike child' := by
  obtain ⟨i, hi⟩ := List.mem_iff_getElem?.mp hc
  obtain ⟨child', hc', ha⟩ := h.exists_child hi
  exact ⟨child', List.mem_of_getElem? hc', ha⟩

theorem Alike.isLeaf_eq (h : n.Alike m) : n.isLeaf = m.isLeaf := by
  have := h.length_eq
  rw [isLeaf, isLeaf]
  cases hn : n.children <;> cases hm : m.children <;> simp_all

theorem Alike.isRoot_eq (h : n.Alike m) : n.isRoot = m.isRoot := by
  rw [isRoot, isRoot, h.plan_eq]

theorem Alike.height_eq (h : n.Alike m) : n.height = m.height := by
  have hblank : ∀ n : Node, n.blank.height = n.height := by
    refine Node.induction fun n ih => ?_
    rw [blank_eq, Node.height_eq, Node.height_eq n]
    refine congrArg (· + 1) ?_
    have hof : ∀ ns : List Node, (∀ child ∈ ns, child.blank.height = child.height) →
        heightOf (ns.map blank) = heightOf ns := by
      intro ns
      induction ns with
      | nil => exact fun _ => rfl
      | cons child rest ihr =>
        intro hall
        rw [List.map_cons, heightOf, heightOf, hall child (.head _),
          ihr fun c hc => hall c (.tail _ hc)]
    exact hof n.children ih
  rw [← hblank n, ← hblank m, h]

theorem Alike.columns_eq (h : n.Alike m) : n.columns = m.columns := by
  have hblank : ∀ (n : Node) (outer : String), n.blank.columnsUnder outer = n.columnsUnder outer := by
    intro n
    induction n using Node.induction with
    | node n ih =>
      intro outer
      rw [blank_eq]
      obtain ⟨plan, progress, children⟩ := n
      rw [columnsUnder, columnsUnder, columnsOf_eq, columnsOf_eq, List.flatMap_map]
      refine congrArg _ (List.flatMap_congr fun child hc => ?_)
      exact ih child hc _
  rw [columns, columns, ← hblank n, ← hblank m, h]

/-! ## Changes that keep the tree -/

theorem purge_purge (c : Collection) : c.purge.purge = c.purge := by
  simp [Collection.purge, Fields.mapValues, Function.comp_def]

/-- A change of progress that keeps the layout of the rows. -/
theorem alike_of_progress {progress : Node.Progress}
    (h : progress.results.purge = n.progress.results.purge) :
    Alike { n with progress } n := by
  rw [alike_iff]
  exact ⟨rfl, h, rfl⟩

theorem alike_reset (n : Node) : n.reset.Alike n := by
  induction n using Node.induction with
  | node n ih =>
    rw [alike_iff, plan_reset, children_reset, List.map_map]
    refine ⟨rfl, ?_, List.map_congr_left fun child hc => ih child hc⟩
    obtain ⟨plan, progress, children⟩ := n
    rfl

theorem alike_resetChildren (n : Node) : n.resetChildren.Alike n := by
  rw [alike_iff, resetChildren, resetOf_eq, List.map_map]
  exact ⟨rfl, rfl, List.map_congr_left fun child _ => alike_reset child⟩

theorem alike_setChild {i : Nat} {child child' : Node} (hc : n.children[i]? = some child)
    (h : child'.Alike child) : (n.setChild i child').Alike n := by
  have hset : (n.children.set i child').map blank = n.children.map blank := by
    refine List.ext_getElem? fun j => ?_
    rw [List.getElem?_map, List.getElem?_map]
    by_cases hij : i = j
    · subst hij
      rw [List.getElem?_set_self (List.getElem?_eq_some_iff.mp hc).1, hc]
      exact congrArg some h
    · rw [List.getElem?_set_ne hij]
  exact alike_iff.mpr ⟨rfl, rfl, hset⟩

theorem alike_keepBefore (n : Node) (i : Nat) : (n.keepBefore i).Alike n := alike_of_progress rfl

theorem alike_keepResults (n : Node) (i : Nat) (c : Collection) : (n.keepResults i c).Alike n :=
  alike_of_progress rfl

/-! ## Trees as they are built -/

/-- The edge to a node; a root has one without names. -/
def edge (n : Node) : Navigation := n.plan.edge.getD ⟨"", true, "", "", ""⟩

theorem Alike.edge_eq (h : n.Alike m) : n.edge = m.edge := by rw [edge, edge, h.plan_eq]

/-- A child is reached by an edge; host and child find their rows by the keys of the edge, unless the
name of a key is empty. -/
structure Joint (n child : Node) (edge : Navigation) : Prop where
  edge_eq : child.plan.edge = some edge
  inner : child.isRoot = false
  host : edge.hostKey = "" ∨ n.progress.results.Tracks edge.hostKey
  related : edge.relatedKey = "" ∨ child.progress.results.Tracks edge.relatedKey

/-- The rows of a node remember where they come from, and each field tracks them once. -/
structure Laid (n : Node) : Prop where
  origin : n.progress.results.origin = some n.plan.origin
  wellLaid : n.progress.results.WellLaid
  key : ∀ field, n.progress.results.primaryKey = some field →
    n.plan.request.entity.primaryKey = .ok (some field)

/-- A tree as it is built. -/
inductive Formed : Node → Prop where
  | node {n : Node} (laid : n.Laid) (joint : ∀ child ∈ n.children, ∃ edge, Joint n child edge)
    (distinct : n.children.Pairwise fun a b => ∀ e f, a.plan.edge = some e → b.plan.edge = some f →
      e.name ≠ f.name)
    (below : ∀ child ∈ n.children, Formed child) : Formed n

theorem Formed.laid (h : n.Formed) : n.Laid := by cases h; assumption

theorem Formed.joint (h : n.Formed) {child : Node} (hc : child ∈ n.children) :
    ∃ edge, Joint n child edge := by
  cases h with
  | node _ joint => exact joint child hc

theorem Formed.distinct (h : n.Formed) : n.children.Pairwise fun a b =>
    ∀ e f, a.plan.edge = some e → b.plan.edge = some f → e.name ≠ f.name := by
  cases h; assumption

theorem Formed.child (h : n.Formed) {child : Node} (hc : child ∈ n.children) : child.Formed := by
  cases h with
  | node _ _ _ below => exact below child hc

theorem Laid.of_alike (h : n.Laid) (ha : n.Alike m) : m.Laid := by
  obtain ⟨ho, hk, -⟩ := Collection.layout_eq_iff.mp ha.layout_eq
  refine ⟨?_, Collection.wellLaid_congr ha.layout_eq h.wellLaid, fun field hf => ?_⟩
  · rw [← ho, ← ha.plan_eq, h.origin]
  · rw [← ha.plan_eq]
    exact h.key field (hk.trans hf)

theorem Joint.edge_child {child : Node} {edge : Navigation} (h : Joint n child edge) :
    child.edge = edge := by
  rw [Node.edge, h.edge_eq]
  rfl

theorem Joint.of_alike {child child' : Node} {edge : Navigation} (h : Joint n child edge)
    (ha : n.Alike m) (hc : child.Alike child') : Joint m child' edge where
  edge_eq := hc.plan_eq ▸ h.edge_eq
  inner := hc.isRoot_eq ▸ h.inner
  host := h.host.imp id (Collection.tracks_congr ha.layout_eq _).mp
  related := h.related.imp id (Collection.tracks_congr hc.layout_eq _).mp

/-- A child has no columns of its own, since it is no root. -/
theorem Joint.columns_eq {child : Node} {edge : Navigation} (h : Joint n child edge)
    (hr : child.isRoot = true) : child.columns = [] :=
  nomatch h.inner.symm.trans hr

theorem Laid.navigation (h : n.Laid) {edge : Navigation} (he : n.plan.edge = some edge) :
    n.progress.results.navigation = .ok edge := by
  rw [Collection.navigation, h.origin]
  simp only [Plan.origin, he]

/-- The rows of a child know the edge to it. -/
theorem Formed.navigation_child (h : n.Formed) {child : Node} (hc : child ∈ n.children) :
    child.progress.results.navigation = .ok child.edge := by
  obtain ⟨edge, hj⟩ := h.joint hc
  rw [(h.child hc).laid.navigation hj.edge_eq, hj.edge_child]

/-- The edges to the children differ in their names. -/
theorem Formed.distinct_edges (h : n.Formed) :
    n.children.Pairwise fun a b => a.edge.name ≠ b.edge.name := by
  refine h.distinct.imp_of_mem fun {a b} ha hb hne => ?_
  obtain ⟨e, he⟩ := h.joint ha
  obtain ⟨e', he'⟩ := h.joint hb
  rw [he.edge_child, he'.edge_child]
  exact hne e e' he.edge_eq he'.edge_eq

/-- Children at the ends of the same edge are the same. -/
theorem Formed.eq_of_edge (h : n.Formed) {a b : Node} (ha : a ∈ n.children) (hb : b ∈ n.children)
    (he : a.edge = b.edge) : a = b := by
  obtain ⟨i, hi, rfl⟩ := List.mem_iff_getElem.mp ha
  obtain ⟨j, hj, rfl⟩ := List.mem_iff_getElem.mp hb
  have hpair := List.pairwise_iff_getElem.mp h.distinct_edges
  rcases Nat.lt_trichotomy i j with hlt | rfl | hgt
  · exact absurd (congrArg Navigation.name he) (hpair i j hi hj hlt)
  · rfl
  · exact absurd (congrArg Navigation.name he).symm (hpair j i hj hi hgt)

/-- A node of height one is a leaf. -/
theorem children_of_height_le (h : n.height ≤ 1) : n.children = [] := by
  refine List.eq_nil_iff_forall_not_mem.mpr fun child hc => ?_
  have hlt := height_lt_of_mem hc
  rw [height_eq child] at hlt
  omega

/-- **What was built stays as it was built.** -/
theorem Formed.of_alike (h : n.Formed) (ha : n.Alike m) : m.Formed := by
  induction h generalizing m with
  | @node n laid joint distinct below ih =>
    refine .node (laid.of_alike ha) (fun child' hc' => ?_) ?_ fun child' hc' => ?_
    · obtain ⟨child, hc, hac⟩ := ha.symm.exists_mem hc'
      obtain ⟨edge, hj⟩ := joint child hc
      exact ⟨edge, hj.of_alike ha hac.symm⟩
    · have hplans : n.children.map (·.plan.edge) = m.children.map (·.plan.edge) := by
        have := congrArg (List.map fun n : Node => n.plan.edge) (alike_iff.mp ha).2.2
        simpa [List.map_map, Function.comp_def, blank_eq] using this
      have hpair : (n.children.map (·.plan.edge)).Pairwise fun a b =>
          ∀ e f, a = some e → b = some f → e.name ≠ f.name := List.pairwise_map.mpr distinct
      rw [hplans] at hpair
      exact List.pairwise_map.mp hpair
    · obtain ⟨child, hc, hac⟩ := ha.symm.exists_mem hc'
      exact ih child hc hac.symm

/-! ## Nodes at the ends of edges -/

mutual

/-- The nodes of a tree with the names of the edges that lead to them. -/
def located : Node → List (List String × Node)
  | ⟨plan, progress, children⟩ => ([], ⟨plan, progress, children⟩) :: locatedOf children

/-- `located` over a list of nodes. -/
def locatedOf : List Node → List (List String × Node)
  | [] => []
  | n :: rest => (n.located.map fun (hops, m) => (n.edge.name :: hops, m)) ++ locatedOf rest

end

theorem mem_locatedOf {ns : List Node} {hops : List String} :
    (hops, m) ∈ locatedOf ns ↔
      ∃ child ∈ ns, ∃ rest, (rest, m) ∈ child.located ∧ hops = child.edge.name :: rest := by
  induction ns with
  | nil => simp [locatedOf]
  | cons n rest ih =>
    rw [locatedOf, List.mem_append, ih]
    simp only [List.mem_map, Prod.mk.injEq, Prod.exists, List.mem_cons, exists_eq_or_imp]
    constructor
    · rintro (⟨hops', m', h, rfl, rfl⟩ | h)
      · exact .inl ⟨hops', h, rfl⟩
      · exact .inr h
    · rintro (⟨hops', h, rfl⟩ | h)
      · exact .inl ⟨hops', m, h, rfl, rfl⟩
      · exact .inr h

/-- A place is the node itself, or a place of a child behind the child's edge. -/
theorem mem_located {hops : List String} :
    (hops, m) ∈ n.located ↔ (hops = [] ∧ m = n) ∨
      ∃ child ∈ n.children, ∃ rest, (rest, m) ∈ child.located ∧ hops = child.edge.name :: rest := by
  obtain ⟨plan, progress, children⟩ := n
  rw [located, List.mem_cons, mem_locatedOf]
  simp

theorem mem_located_self (n : Node) : ([], n) ∈ n.located := mem_located.mpr (.inl ⟨rfl, rfl⟩)

theorem mem_located_child {child : Node} {hops : List String} (hc : child ∈ n.children)
    (h : (hops, m) ∈ child.located) : (child.edge.name :: hops, m) ∈ n.located :=
  mem_located.mpr (.inr ⟨child, hc, hops, h, rfl⟩)

/-- The places of two states of one tree are the same. -/
theorem Alike.exists_located (h : n.Alike m) {hops : List String} {k : Node}
    (hk : (hops, k) ∈ n.located) : ∃ k', (hops, k') ∈ m.located ∧ k.Alike k' := by
  induction n using Node.induction generalizing m hops with
  | node n ih =>
    rcases mem_located.mp hk with ⟨rfl, rfl⟩ | ⟨child, hc, rest, hrest, rfl⟩
    · exact ⟨m, mem_located_self m, h⟩
    · obtain ⟨child', hc', ha⟩ := h.exists_mem hc
      obtain ⟨k', hk', hak⟩ := ih child hc ha hrest
      refine ⟨k', ?_, hak⟩
      exact ha.edge_eq ▸ mem_located_child hc' hk'

/-! ## All nodes of a tree -/

theorem mem_all_self (n : Node) : n ∈ n.all := by
  rw [all_eq]
  exact .head _

theorem mem_all_child {child : Node} (hc : child ∈ n.children) (hm : m ∈ child.all) : m ∈ n.all := by
  rw [all_eq]
  exact .tail _ (List.mem_flatMap.mpr ⟨child, hc, hm⟩)

theorem mem_all_trans {k : Node} (hm : m ∈ n.all) (hk : k ∈ m.all) : k ∈ n.all := by
  induction n using Node.induction with
  | node n ih =>
    rw [all_eq] at hm
    rcases List.mem_cons.mp hm with rfl | hm
    · exact hk
    · obtain ⟨child, hc, hm⟩ := List.mem_flatMap.mp hm
      exact mem_all_child hc (ih child hc hm)

/-- What is true of all nodes is true of the first, and of all nodes below it. -/
theorem forall_mem_all {Q : Node → Prop} :
    (∀ m ∈ n.all, Q m) ↔ Q n ∧ ∀ child ∈ n.children, ∀ m ∈ child.all, Q m := by
  simp only [all_eq n, List.forall_mem_cons, List.mem_flatMap]
  exact and_congr_right fun _ => ⟨fun h child hc m hm => h m ⟨child, hc, hm⟩,
    fun h m ⟨child, hc, hm⟩ => h child hc m hm⟩

theorem mem_all_of_mem_located {hops : List String} (h : (hops, m) ∈ n.located) : m ∈ n.all := by
  induction n using Node.induction generalizing hops with
  | node n ih =>
    rcases mem_located.mp h with ⟨-, rfl⟩ | ⟨child, hc, rest, hrest, -⟩
    · exact mem_all_self m
    · exact mem_all_child hc (ih child hc hrest)

theorem Formed.of_mem_all (h : n.Formed) (hm : m ∈ n.all) : m.Formed := by
  induction h with
  | @node n laid joint distinct below ih =>
    rw [all_eq] at hm
    rcases List.mem_cons.mp hm with rfl | hm
    · exact .node laid joint distinct below
    · obtain ⟨child, hc, hm⟩ := List.mem_flatMap.mp hm
      exact ih child hc hm

/-- The nodes of two states of one tree are the same. -/
theorem Alike.exists_all (h : n.Alike m) {k : Node} (hk : k ∈ n.all) : ∃ k' ∈ m.all, k.Alike k' := by
  induction n using Node.induction generalizing m with
  | node n ih =>
    rw [all_eq] at hk
    rcases List.mem_cons.mp hk with rfl | hk
    · exact ⟨m, mem_all_self m, h⟩
    · obtain ⟨child, hc, hk⟩ := List.mem_flatMap.mp hk
      obtain ⟨child', hc', ha⟩ := h.exists_mem hc
      obtain ⟨k', hk', hak⟩ := ih child hc ha hk
      exact ⟨k', mem_all_child hc' hk', hak⟩

/-! ## Edges with names for their keys -/

/-- Every edge of a tree has names for the keys at its ends. -/
def Hinged (n : Node) : Prop :=
  ∀ m ∈ n.all, ∀ edge, m.plan.edge = some edge → edge.hostKey ≠ "" ∧ edge.relatedKey ≠ ""

instance (n : Node) : Decidable n.Hinged :=
  inferInstanceAs
    (Decidable (∀ m ∈ n.all, ∀ edge ∈ m.plan.edge, edge.hostKey ≠ "" ∧ edge.relatedKey ≠ ""))

theorem Hinged.child (h : n.Hinged) {child : Node} (hc : child ∈ n.children) : child.Hinged :=
  fun m hm => h m (mem_all_child hc hm)

theorem Hinged.of_alike (h : n.Hinged) (ha : n.Alike m) : m.Hinged := by
  intro k hk
  obtain ⟨k', hk', hak⟩ := ha.symm.exists_all hk
  exact hak.plan_eq ▸ h k' hk'

/-- Host and child find their rows by the keys of an edge that has names for them. -/
theorem Hinged.tracks (h : n.Hinged) (hf : n.Formed) {child : Node} (hc : child ∈ n.children) :
    n.progress.results.Tracks child.edge.hostKey ∧ child.progress.results.Tracks child.edge.relatedKey ∧
      child.edge.relatedKey ≠ "" := by
  obtain ⟨edge, hj⟩ := hf.joint hc
  obtain ⟨hhost, hrelated⟩ := h child (mem_all_child hc (mem_all_self child)) edge hj.edge_eq
  rw [hj.edge_child]
  exact ⟨hj.host.resolve_left hhost, hj.related.resolve_left hrelated, hrelated⟩

end PathQuery.Node
