import PathQuery.Proofs.Graph.Expand
import PathQuery.Proofs.Graph.Run

/-!
# Proofs/Graph/Branches — when every row has something at the end of every edge

A node keeps the hosts that join with the rows of its *last* child (`branch`); what they join with of the
other children is embedded, be it nothing.  So a row has something at the end of every edge exactly if its
host, and each entity embedded in it, agrees with all children at once (`isJoined_shape`).  Hosts that share
what the last child gave may disagree on the others.
-/

namespace PathQuery

open Expand (Branch embedAll)

namespace Node

/-! ## What a node gives -/

mutual

/-- The hosts that a node has taken for its last child, and what is embedded in them. -/
def branch : Node → Branch
  | ⟨plan, progress, children⟩ =>
    { edge := edge ⟨plan, progress, children⟩
      rows := match (branchesOf children).getLast? with
        | none => progress.results.rows
        | some last => (Collection.taken last.edge last.rows progress.results.members).map (·.entity)
      shape := embedAll (branchesOf children) }

/-- `branch` over a list of nodes. -/
def branchesOf : List Node → List Branch
  | [] => []
  | n :: rest => n.branch :: branchesOf rest

end

mutual

/-- Whether a document has an entity at the end of each edge of a node, and so has each of these. -/
def isJoined : Node → Document → Bool
  | ⟨_, _, children⟩, doc => isJoinedOf children doc

/-- `isJoined` over the children of a node. -/
def isJoinedOf : List Node → Document → Bool
  | [], _ => true
  | child :: rest, doc =>
    (match doc.get? child.edge.name with
      | some (.object related) => child.edge.isScalar && child.isJoined related
      | some (.array items) => !child.edge.isScalar && !items.isEmpty &&
          items.all fun
            | .object related => child.isJoined related
            | _ => false
      | _ => false) && isJoinedOf rest doc

end

mutual

/-- Whether a host joins with rows of every child of a node, which agree in their turn: the first of them
at a scalar edge, and all of them at a collection edge. -/
def agrees : Node → Entity → Bool
  | ⟨_, _, children⟩, host => agreesOf children host

/-- `agrees` over the children of a node. -/
def agreesOf : List Node → Entity → Bool
  | [], _ => true
  | child :: rest, host =>
    (let found := child.branch.rows.filter (child.branch.edge.joins host)
      if child.edge.isScalar then found.head?.any fun row => child.agrees row
      else !found.isEmpty && found.all fun row => child.agrees row) && agreesOf rest host

end

theorem branchesOf_eq (ns : List Node) : branchesOf ns = ns.map branch := by
  induction ns with
  | nil => rfl
  | cons n rest ih => rw [branchesOf, ih, List.map_cons]

@[simp] theorem edge_branch (n : Node) : n.branch.edge = n.edge := by
  obtain ⟨plan, progress, children⟩ := n
  rfl

theorem shape_branch (n : Node) : n.branch.shape = embedAll (n.children.map branch) := by
  obtain ⟨plan, progress, children⟩ := n
  rw [branch, branchesOf_eq]

theorem rows_branch (n : Node) : n.branch.rows =
    match (n.children.map branch).getLast? with
    | none => n.progress.results.rows
    | some last => (Collection.taken last.edge last.rows n.progress.results.members).map (·.entity) := by
  obtain ⟨plan, progress, children⟩ := n
  rw [branch, branchesOf_eq]

variable {f : Fetcher} {values : Option (List Value)} {n : Node} {c : Collection}

theorem Formed.distinct_branches (h : n.Formed) :
    (n.children.map branch).Pairwise fun a b => a.edge.name ≠ b.edge.name := by
  refine List.pairwise_map.mpr (h.distinct.imp_of_mem fun {a b} ha hb hd => ?_)
  obtain ⟨e, he⟩ := h.joint ha
  obtain ⟨e', he'⟩ := h.joint hb
  rw [edge_branch, edge_branch, he.edge_child, he'.edge_child]
  exact hd e e' he.edge_eq he'.edge_eq

/-- What an expansion writes under the name of an edge. -/
theorem get?_shape_branch (hf : n.Formed) {child : Node} (hc : child ∈ n.children) (host : Entity) :
    (n.branch.shape host).toDocument.get? child.edge.name = some (child.branch.field host).toValue := by
  rw [Entity.toDocument, Fields.get?_mapValues, shape_branch, ← edge_branch child,
    Expand.get?_embedAll hf.distinct_branches (List.mem_map_of_mem hc)]
  rfl

/-! ## What is given in an expansion -/

/-- The rows of an open node are stored documents. -/
theorem Open.plain {past batch ahead : List Document} (h : n.Open f values past batch ahead) {m : Member}
    (hm : m ∈ n.progress.results.members) {name : String} {v : FieldValue}
    (hv : m.entity.get? name = some v) : ∃ w, v = .plain w := by
  obtain ⟨got, -, hrows, -⟩ := h.rows
  have hmem : m.entity ∈ n.progress.results.rows := List.mem_map_of_mem hm
  rw [hrows] at hmem
  obtain ⟨doc, -, hdoc⟩ := List.mem_map.mp hmem
  rw [← hdoc, Entity.ofDocument, Fields.get?_mapValues] at hv
  obtain ⟨w, -, rfl⟩ := Option.map_eq_some_iff.mp hv
  exact ⟨w, rfl⟩

/-- Valid rows of a child, shaped by its branch, are what a combination embeds. -/
theorem shapes_branch {child : Node} {edge : Navigation} {v : Collection} (hj : Joint n child edge)
    (hf : child.Formed) (hv : v.Valid) (hl : v.layout = child.progress.results.layout)
    (hrows : v.rows = child.branch.rows) :
    child.branch.Shapes (v.reshape fun _ => child.branch.shape) := by
  have hnav : v.navigation = .ok edge := by
    rw [Collection.navigation_congr hl, Collection.navigation, hf.laid.origin]
    simp only [Plan.origin, hj.edge_eq]
  refine ⟨?_, ?_, v, hv, hrows, rfl⟩
  · rw [edge_branch, hj.edge_child, ← hnav]
    exact Collection.navigation_congr (Collection.layout_reshape _)
  · rw [shape_branch]
    exact Expand.keepsKeys_embedAll _

/-- **What a node gives** is valid rows, with what is embedded in them. -/
theorem Active.shaped (hf : n.Formed) (ha : Active f values n) (hc : f.combination = .expand)
    (hg : Gave f n c) : ∃ v : Collection, v.Valid ∧ v.layout = n.progress.results.layout ∧
      v.rows = n.branch.rows ∧ c = v.reshape fun _ => n.branch.shape := by
  induction n using Node.induction generalizing values c with
  | node n ih =>
    obtain ⟨hlen, hcomb⟩ := hg
    rw [hc, Combination.combine] at hcomb
    obtain ⟨past, batch, ahead, ho⟩ := ha.exists_open
    have hshapes : List.Forall₂ (fun child b => Branch.Shapes b child) n.progress.childResults
        (n.children.map branch) := by
      refine List.forall₂_iff_get.mpr ⟨by simp [hlen], fun i hi hi' => ?_⟩
      have hi' : i < n.children.length := by simpa using hi'
      have hget : n.children[i]? = some n.children[i] := List.getElem?_eq_getElem hi'
      have hmem := List.getElem_mem hi'
      obtain ⟨edge, hj⟩ := hf.joint hmem
      obtain ⟨vals, hactive, hgave⟩ := ha.exists_gave hget (List.getElem?_eq_getElem hi)
      obtain ⟨v, hv, hl, hrows, hshape⟩ := ih _ hmem (hf.child hmem) hactive hgave
      simp only [List.get_eq_getElem, List.getElem_map]
      rw [hshape]
      exact shapes_branch hj (hf.child hmem) hv hl hrows
    by_cases hleaf : n.children = []
    · rw [(childResults_eq_nil_iff hlen).mpr hleaf, Expand.combine_nil] at hcomb
      cases hcomb
      refine ⟨_, ho.valid, rfl, by rw [rows_branch, hleaf]; rfl, ?_⟩
      rw [shape_branch, hleaf]
      exact Collection.reshape_self.symm
    · have hne : n.progress.childResults ≠ [] := (childResults_eq_nil_iff hlen).not.mpr hleaf
      obtain ⟨last, joined, hlast, hv, hl, hmem, rfl⟩ := Expand.combine_eq hshapes hne ho.valid ho.apart
        (fun m hm name v => ho.plain hm) hcomb
      refine ⟨joined, hv, hl, ?_, by rw [shape_branch]⟩
      rw [rows_branch, hlast, Collection.rows, hmem]

theorem Active.rows_eq (hf : n.Formed) (ha : Active f values n) (hc : f.combination = .expand)
    (hg : Gave f n c) : c.rows = n.branch.rows.map n.branch.shape := by
  obtain ⟨v, -, -, hrows, rfl⟩ := ha.shaped hf hc hg
  rw [Collection.rows_reshape, hrows]

/-! ## Entities at the ends of all edges -/

theorem isJoined_eq (n : Node) (doc : Document) : n.isJoined doc =
    n.children.all fun child =>
      match doc.get? child.edge.name with
      | some (.object related) => child.edge.isScalar && child.isJoined related
      | some (.array items) => !child.edge.isScalar && !items.isEmpty &&
          items.all fun
            | .object related => child.isJoined related
            | _ => false
      | _ => false := by
  obtain ⟨plan, progress, children⟩ := n
  rw [isJoined]
  induction children with
  | nil => rfl
  | cons child rest ih =>
    rw [isJoinedOf, List.all_cons, ih]

theorem agrees_eq (n : Node) (host : Entity) : n.agrees host =
    n.children.all fun child =>
      let found := child.branch.rows.filter (child.edge.joins host)
      if child.edge.isScalar then found.head?.any child.agrees
      else !found.isEmpty && found.all child.agrees := by
  obtain ⟨plan, progress, children⟩ := n
  rw [agrees]
  induction children with
  | nil => rfl
  | cons child rest ih =>
    rw [agreesOf, List.all_cons, ih, edge_branch]

/-- **A row has something at the end of every edge** exactly if its host agrees with all children. -/
theorem isJoined_shape (hf : n.Formed) (host : Entity) :
    n.isJoined (n.branch.shape host).toDocument = n.agrees host := by
  induction n using Node.induction generalizing host with
  | node n ih =>
    rw [isJoined_eq, agrees_eq]
    rw [Bool.eq_iff_iff, List.all_eq_true, List.all_eq_true]
    refine forall₂_congr fun child hc => ?_
    rw [← Bool.eq_iff_iff]
    have hchild : ∀ row, child.isJoined (child.branch.shape row).toDocument = child.agrees row :=
      ih child hc (hf.child hc)
    rw [get?_shape_branch hf hc, Branch.field, edge_branch, Branch.related, edge_branch]
    generalize child.branch.rows.filter (child.edge.joins host) = found
    cases child.edge.isScalar with
    | true => cases found <;> simp [FieldValue.toValue, hchild]
    | false => cases found <;> simp [FieldValue.toValue, hchild, Function.comp_def]

end Node

namespace Graph

variable {g g₁ g₂ : Graph} {c : Collection}

/-- The rows of a batch, in an expansion. -/
theorem rows_of_batch (hb : g.Built) (hr : g.Reached g₁) (he : g.fetcher.combination = .expand)
    (hf : g₁.fetch = (.ok (.batch c), g₂)) :
    g₂.root.Formed ∧ c.rows = g₂.root.branch.rows.map g₂.root.branch.shape := by
  obtain ⟨hs, hfet, -⟩ := hr.sound hb.sound
  obtain ⟨-, hfet', -, -, -, hactive, hgave⟩ := hs.fetch hf
  have hs₂ := hs.after_fetch hf
  refine ⟨hs₂.formed, hactive.rows_eq hs₂.formed ?_ hgave⟩
  rw [hfet', hfet, he]

/-- **Every row of a batch has something at the end of every edge** exactly if every host that was taken
for the last child agrees with all children. -/
theorem forall_isJoined_iff (hb : g.Built) (hr : g.Reached g₁) (he : g.fetcher.combination = .expand)
    (hf : g₁.fetch = (.ok (.batch c), g₂)) :
    (∀ row ∈ c.rows, g₂.root.isJoined row.toDocument = true) ↔
      ∀ host ∈ g₂.root.branch.rows, g₂.root.agrees host = true := by
  obtain ⟨hformed, hrows⟩ := rows_of_batch hb hr he hf
  rw [hrows, List.forall_mem_map]
  refine forall₂_congr fun host _ => ?_
  rw [Node.isJoined_shape hformed]

/-- The orders of the small store: the condition can be asked of their first batch, and it fails there. -/
theorem forall_isJoined_iff_shop : ∃ (g g₁ g₂ : Graph) (c : Collection), g.Built ∧ g.Reached g₁ ∧
    g.fetcher.combination = .expand ∧ g₁.fetch = (.ok (.batch c), g₂) ∧
    ((∀ row ∈ c.rows, g₂.root.isJoined row.toDocument = true) ↔
      ∀ host ∈ g₂.root.branch.rows, g₂.root.agrees host = true) ∧
    g₂.root.branch.rows.map g₂.root.agrees = [true, false] := by
  obtain ⟨root, after, g₁, g₂, c, hq, hr, hf, htest⟩ := Shop.exists_batch .expand
    (fun _ _ g₂ => g₂.root.branch.rows.map g₂.root.agrees == [true, false]) (by decide +kernel)
  have hb : (ofRoot (Shop.registry Shop.store) .expand 10 root).Built := .ofRoot (.ofConfig _ _) hq _ _ _
  exact ⟨_, g₁, g₂, c, hb, hr, rfl, hf, forall_isJoined_iff hb hr rfl hf, eq_of_beq htest⟩

/-- **Hosts that share a row of the last child** are kept although they disagree on another: the second
order of the small store has an unknown customer and is given all the same. -/
theorem exists_not_isJoined : ∃ (root : Node) (after : Catalog) (g₁ g₂ : Graph) (c : Collection),
    Node.ofQuery? (Shop.catalog Shop.store) "Orders" Shop.predicates [] = (.ok root, after) ∧
    (ofRoot (Shop.registry Shop.store) .expand 10 root).Built ∧
    (ofRoot (Shop.registry Shop.store) .expand 10 root).Reached g₁ ∧ g₁.fetch = (.ok (.batch c), g₂) ∧
    ∃ row ∈ c.rows, row.toDocument.get? "customer" = some .null ∧
      g₂.root.isJoined row.toDocument = false := by
  obtain ⟨root, after, g₁, g₂, c, hq, hr, hf, htest⟩ := Shop.exists_batch .expand
    (fun _ c g₂ => c.rows.any fun row =>
      (row.toDocument.get? "customer").any Value.isNull && !g₂.root.isJoined row.toDocument)
    (by decide +kernel)
  obtain ⟨row, hrow, htest⟩ := List.any_eq_true.mp htest
  obtain ⟨hnull, hnot⟩ := Bool.and_eq_true_iff.mp htest
  obtain ⟨v, hv, hnull⟩ := (Option.any_eq_true _ _).mp hnull
  refine ⟨root, after, g₁, g₂, c, hq, .ofRoot (.ofConfig _ _) hq _ _ _, hr, hf, row, hrow, ?_,
    by simpa using hnot⟩
  cases v <;> first | exact hv | exact nomatch hnull

end Graph

end PathQuery
