import PathQuery.Proofs.Graph.Branches
import PathQuery.Proofs.Graph.Drawn

/-!
# Proofs/Graph/Provenance — every row stems from stored documents that join

A row of the root stems from one stored document that satisfies the root's restriction, and what stands at
the end of an edge stems from stored documents of the child that join with it, all the way down (`Stems` in an
expansion, `Imports` in a projection).  What the children hold was asked for with the batch that it is combined
with, so nothing is left from an earlier one (`forall_row_stems`).
-/

namespace PathQuery

open Expand (Branch embedAll)

namespace Node

variable {r : Registry} {f : Fetcher} {values : Option (List Value)} {n m : Node} {c : Collection}

/-! ## Embedded entities -/

mutual

/-- Whether a written row stems from a stored document of a node: it has the document's fields, and under
the name of each edge entities that stem from documents of the child that join with it. -/
def Stems (r : Registry) : Node → Document → Document → Prop
  | ⟨plan, _, children⟩, doc, row =>
    Stored r plan.request doc ∧
      (∀ name, (∀ child ∈ children, child.edge.name ≠ name) → row.get? name = doc.get? name) ∧
      StemsOf r children doc row

/-- What `Stems` asks of the edges to some children. -/
def StemsOf (r : Registry) : List Node → Document → Document → Prop
  | [], _, _ => True
  | child :: rest, doc, row =>
    (match row.get? child.edge.name with
      | some .null => child.edge.isScalar = true
      | some (.object related) => child.edge.isScalar = true ∧
          ∃ origin, child.edge.Links doc origin ∧ child.Stems r origin related
      | some (.array items) => child.edge.isScalar = false ∧ ∀ item ∈ items, ∃ related origin,
          item = .object related ∧ child.edge.Links doc origin ∧ child.Stems r origin related
      | _ => False) ∧ StemsOf r rest doc row

end

/-- What a row has under the name of an edge. -/
def Linked (r : Registry) (child : Node) (doc : Document) (field : Option Value) : Prop :=
  match field with
  | some .null => child.edge.isScalar = true
  | some (.object related) => child.edge.isScalar = true ∧
      ∃ origin, child.edge.Links doc origin ∧ child.Stems r origin related
  | some (.array items) => child.edge.isScalar = false ∧ ∀ item ∈ items, ∃ related origin,
      item = .object related ∧ child.edge.Links doc origin ∧ child.Stems r origin related
  | _ => False

theorem stems_iff {doc row : Document} : n.Stems r doc row ↔ Stored r n.plan.request doc ∧
    (∀ name, (∀ child ∈ n.children, child.edge.name ≠ name) → row.get? name = doc.get? name) ∧
    ∀ child ∈ n.children, Linked r child doc (row.get? child.edge.name) := by
  obtain ⟨plan, progress, children⟩ := n
  have hof : ∀ ns : List Node, StemsOf r ns doc row ↔
      ∀ child ∈ ns, Linked r child doc (row.get? child.edge.name) := by
    intro ns
    induction ns with
    | nil => simp [StemsOf]
    | cons child rest ih =>
      rw [StemsOf, ih, List.forall_mem_cons]
      rfl
  rw [Stems, hof]

theorem Linked.of_alike {child child' : Node} (ha : child.Alike child') {doc : Document}
    {field : Option Value} (hs : ∀ {doc row}, child.Stems r doc row → child'.Stems r doc row)
    (h : Linked r child doc field) : Linked r child' doc field := by
  unfold Linked at h ⊢
  rw [← ha.edge_eq]
  split at h
  · exact h
  · obtain ⟨hscalar, origin, hl, horigin⟩ := h
    exact ⟨hscalar, origin, hl, hs horigin⟩
  · obtain ⟨hscalar, hall⟩ := h
    refine ⟨hscalar, fun item hi => ?_⟩
    obtain ⟨related, origin, he, hl, horigin⟩ := hall item hi
    exact ⟨related, origin, he, hl, hs horigin⟩
  · exact h.elim

/-- What stems from the documents of a tree does not depend on its progress. -/
theorem Stems.of_alike {doc row : Document} (h : n.Stems r doc row) (ha : n.Alike m) :
    m.Stems r doc row := by
  induction n using Node.induction generalizing m doc row with
  | node n ih =>
    obtain ⟨hstored, hkept, hlinked⟩ := stems_iff.mp h
    refine stems_iff.mpr ⟨ha.plan_eq ▸ hstored, fun name hne => hkept name fun child hc => ?_,
      fun child' hc' => ?_⟩
    · obtain ⟨child', hc', hac⟩ := ha.exists_mem hc
      exact hac.edge_eq ▸ hne child' hc'
    · obtain ⟨child, hc, hac⟩ := ha.symm.exists_mem hc'
      rw [hac.edge_eq]
      exact Linked.of_alike hac.symm (fun hs => ih child hc hs hac.symm) (hlinked child hc)

/-- The rows that a node has taken are documents of its own. -/
theorem mem_of_mem_rows_branch {host : Entity} (h : host ∈ n.branch.rows) :
    host ∈ n.progress.results.rows := by
  rw [rows_branch] at h
  split at h
  · exact h
  · obtain ⟨m, hm, rfl⟩ := List.mem_map.mp h
    exact List.mem_map_of_mem (Collection.mem_taken.mp hm).1

/-- An expansion keeps the fields of a document beside those of the edges. -/
theorem get?_shape_branch_of_ne {name : String} (hne : ∀ child ∈ n.children, child.edge.name ≠ name)
    (doc : Document) : (n.branch.shape (Entity.ofDocument doc)).toDocument.get? name = doc.get? name := by
  have hne' : ∀ b ∈ n.children.map branch, b.edge.name ≠ name := by
    intro b hb
    obtain ⟨child, hc, rfl⟩ := List.mem_map.mp hb
    rw [edge_branch]
    exact hne child hc
  rw [Entity.toDocument, Fields.get?_mapValues, shape_branch, Expand.get?_embedAll_of_ne hne',
    Entity.ofDocument, Fields.get?_mapValues]
  cases doc.get? name <;> rfl

/-- What is written for related entities that stem from documents is linked. -/
theorem linked_field {child : Node} {doc : Document} {host : Entity}
    (h : ∀ related ∈ child.branch.related host, ∃ origin, child.edge.Links doc origin ∧
      child.Stems r origin related) : Linked r child doc (some (child.branch.field host).toValue) := by
  rw [Branch.field, edge_branch]
  generalize child.branch.related host = related at h
  cases hscalar : child.edge.isScalar with
  | true =>
    cases related with
    | nil => exact hscalar
    | cons first rest => exact ⟨hscalar, h first (.head _)⟩
  | false =>
    refine ⟨hscalar, fun item hi => ?_⟩
    obtain ⟨d, hd, rfl⟩ := List.mem_map.mp hi
    obtain ⟨origin, hl, hs⟩ := h d hd
    exact ⟨d, origin, rfl, hl, hs⟩

/-- **In an expansion** every row that a node gives stems from its documents. -/
theorem Active.stems (hf : n.Formed) (ha : Active f values n)
    (hlen : n.progress.childResults.length = n.children.length) :
    ∀ host ∈ n.branch.rows, ∃ doc, host = Entity.ofDocument doc ∧
      n.Stems f.registry doc (n.branch.shape host).toDocument := by
  induction n using Node.induction generalizing values with
  | node n ih =>
    intro host hhost
    obtain ⟨past, batch, ahead, ho⟩ := ha.exists_open
    obtain ⟨doc, rfl, hstored⟩ := ho.exists_stored (mem_of_mem_rows_branch hhost)
    refine ⟨doc, rfl, stems_iff.mpr ⟨hstored, fun name hne => get?_shape_branch_of_ne hne doc,
      fun child hc => ?_⟩⟩
    rw [get?_shape_branch hf hc]
    refine linked_field fun related hr => ?_
    obtain ⟨row, hrow, rfl⟩ := List.mem_map.mp hr
    obtain ⟨hrow, hj⟩ := List.mem_filter.mp hrow
    obtain ⟨i, hi⟩ := List.mem_iff_getElem?.mp hc
    obtain ⟨results, hresults⟩ := exists_childResult hlen hi
    obtain ⟨vals, hactive, hgave⟩ := ha.exists_gave hi hresults
    obtain ⟨origin, rfl, hs⟩ := ih child hc (hf.child hc) hactive hgave.1 row hrow
    rw [edge_branch] at hj
    exact ⟨origin, Navigation.links_iff.mpr hj, hs⟩

/-! ## Imported columns -/

mutual

/-- Whether what stands in a row stems from a stored document of a node: under names without dots the
document's fields, and under each edge nothing or what stems from one document of the child that joins. -/
def Imports (r : Registry) : Node → Document → (String → Option FieldValue) → Prop
  | ⟨plan, _, children⟩, doc, view =>
    Stored r plan.request doc ∧ (∀ name, DotFree name → view name = (doc.get? name).map .plain) ∧
      (∀ other : String, DotFree other → (∀ child ∈ children, child.edge.name ≠ other) →
        ∀ name : String, view s!"{other}.{name}" = none) ∧
      ImportsOf r children doc view

/-- What `Imports` asks of the edges to some children. -/
def ImportsOf (r : Registry) : List Node → Document → (String → Option FieldValue) → Prop
  | [], _, _ => True
  | child :: rest, doc, view =>
    ((∀ name : String, view s!"{child.edge.name}.{name}" = none) ∨ ∃ origin, child.edge.Links doc origin ∧
      child.Imports r origin fun name => view s!"{child.edge.name}.{name}") ∧
    ImportsOf r rest doc view

end

theorem imports_iff {doc : Document} {view : String → Option FieldValue} :
    n.Imports r doc view ↔ Stored r n.plan.request doc ∧
      (∀ name, DotFree name → view name = (doc.get? name).map .plain) ∧
      (∀ other : String, DotFree other → (∀ child ∈ n.children, child.edge.name ≠ other) →
        ∀ name : String, view s!"{other}.{name}" = none) ∧
      ∀ child ∈ n.children, (∀ name : String, view s!"{child.edge.name}.{name}" = none) ∨
        ∃ origin, child.edge.Links doc origin ∧
          child.Imports r origin fun name => view s!"{child.edge.name}.{name}" := by
  obtain ⟨plan, progress, children⟩ := n
  have hof : ∀ ns : List Node, ImportsOf r ns doc view ↔
      ∀ child ∈ ns, (∀ name : String, view s!"{child.edge.name}.{name}" = none) ∨
        ∃ origin, child.edge.Links doc origin ∧
          child.Imports r origin fun name => view s!"{child.edge.name}.{name}" := by
    intro ns
    induction ns with
    | nil => simp [ImportsOf]
    | cons child rest ih => rw [ImportsOf, ih, List.forall_mem_cons]
  rw [Imports, hof]

/-- What is imported from the documents of a tree does not depend on its progress. -/
theorem Imports.of_alike {doc : Document} {view : String → Option FieldValue}
    (h : n.Imports r doc view) (ha : n.Alike m) : m.Imports r doc view := by
  induction n using Node.induction generalizing m doc view with
  | node n ih =>
    obtain ⟨hstored, hown, hrest, hchildren⟩ := imports_iff.mp h
    refine imports_iff.mpr ⟨ha.plan_eq ▸ hstored, hown, fun other ho hne => hrest other ho fun child hc => ?_,
      fun child' hc' => ?_⟩
    · obtain ⟨child', hc', hac⟩ := ha.exists_mem hc
      exact hac.edge_eq ▸ hne child' hc'
    · obtain ⟨child, hc, hac⟩ := ha.symm.exists_mem hc'
      rw [hac.edge_eq]
      refine (hchildren child hc).imp id fun ⟨origin, hl, hi⟩ => ?_
      exact ⟨origin, hl, ih child hc hi hac.symm⟩

/-- A drawn row is imported from the document that it is drawn from. -/
theorem Drawn.imports {docs : Draw} {doc : Document} {row : Entity} (h : n.Drawn r docs row) (hf : n.Formed)
    (hd : n.Dotless r) (hdoc : docs [] = some doc) : n.Imports r doc row.get? := by
  induction n using Node.induction generalizing docs doc row with
  | node n ih =>
    obtain ⟨doc', hdoc', hstored, -, hof⟩ := drawn_iff.mp h
    cases hdoc.symm.trans hdoc'
    have hhost := fun edge => under_ofDocument (hd.stored hstored).2 edge
    refine imports_iff.mpr ⟨hstored, fun name hn => h.get?_of_dotFree hdoc hn, fun other ho hne => ?_,
      fun child hc => ?_⟩
    · exact congrFun ((hof.under_of_ne (fun k hk => (hd.edge_child hf hk).1) ho hne).trans (hhost other))
    · rcases hof.under_child (fun k hk => ⟨hd.child hk, (hd.edge_child hf hk).1⟩) hf.distinct_edges
        (fun k _ => hhost k.edge.name) hc with ⟨-, hwide⟩ | ⟨origin, related, ho, hl, hrelated, hwide⟩
      · exact .inl (congrFun hwide)
      · have himports := ih child hc hrelated (hf.child hc) (hd.child hc) ho
        rw [← hwide] at himports
        exact .inr ⟨origin, hl, himports⟩

/-- **In a projection** every row that a node gives is imported from its documents. -/
theorem Active.imports (hf : n.Formed) (ha : Active f values n) (hp : f.combination = .projection)
    (hd : n.Dotless f.registry) (hu : n.Uncut c) :
    ∀ row ∈ c.rows, ∃ doc, n.Imports f.registry doc row.get? := by
  intro row hrow
  obtain ⟨docs, hdrawn⟩ := ha.exists_drawn hf hp hd hu row hrow
  obtain ⟨doc, hdoc, -⟩ := drawn_iff.mp hdrawn
  exact ⟨doc, hdrawn.imports hf hd hdoc⟩

/-! ## Rows that are cut down -/

/-- The rows of a collection that was cut down to some columns. -/
theorem rows_cut {origin : Origin} {wanted : List String} {d : Collection}
    (h : Projection.cut origin wanted c = .ok d) {row : Entity} (hrow : row ∈ d.rows) :
    ∃ whole ∈ c.rows, ∀ name, row.get? name =
      if wanted = [] ∨ name ∈ wanted then whole.get? name else none := by
  rw [Projection.cut] at h
  split at h
  · rename_i hw
    cases h
    refine ⟨row, hrow, fun name => ?_⟩
    rw [if_pos (.inl (List.isEmpty_iff.mp hw))]
  · rename_i hw
    have hempty := Projection.listed_of_slots_eq_nil (Collection.bare_empty (some origin)).valid rfl rfl
    obtain ⟨-, -, hrows⟩ := hempty.addRows h
    rw [hrows] at hrow
    rcases List.mem_append.mp hrow with hrow | hrow
    · obtain ⟨⟩ := hrow
    · obtain ⟨whole, hwhole, rfl⟩ := List.mem_map.mp hrow
      refine ⟨whole, hwhole, fun name => ?_⟩
      rw [Fields.get?_keep]
      simp only [List.isEmpty_iff.not.mp hw, false_or, List.contains_iff_mem]

end Node

namespace Graph

open Node

variable {g g₁ g₂ : Graph} {c : Collection}

/-- **Every row of a batch stems from stored documents that join**: in an expansion with all that is embedded
in it; in a projection under all names that are no columns of an edge; and with these where no row is cut down
and no name has a dot.  What the children hold, here and below, was asked for with the batch that is there
now. -/
theorem forall_row_stems (hb : g.Built) (hr : g.Reached g₁) (hf : g₁.fetch = (.ok (.batch c), g₂)) :
    (Active g₂.fetcher none g₂.root ∧ Gave g₂.fetcher g₂.root c) ∧
    (g.fetcher.combination = .expand →
      ∀ row ∈ c.rows, ∃ doc, g.root.Stems g.fetcher.registry doc row.toDocument) ∧
    (g.fetcher.combination = .projection →
      ∀ row ∈ c.rows, ∃ doc, Stored g.fetcher.registry g.root.plan.request doc ∧
        ∀ name : String, (∀ child ∈ g.root.children, ∀ rest : String, name ≠ s!"{child.edge.name}.{rest}") →
          row.get? name = if g.root.columns = [] ∨ name ∈ g.root.columns
            then (doc.get? name).map .plain else none) ∧
    (g.fetcher.combination = .projection → g.root.columns = [] → g.root.Dotless g.fetcher.registry →
      ∀ row ∈ c.rows, ∃ doc, g.root.Imports g.fetcher.registry doc row.get?) := by
  obtain ⟨hs, hfet, hal⟩ := hr.sound hb.sound
  obtain ⟨-, hfet', hal', -, -, hactive, hgave⟩ := hs.fetch hf
  have hs₂ := hs.after_fetch hf
  have hfetcher : g₂.fetcher = g.fetcher := hfet'.trans hfet
  have halike : g₂.root.Alike g.root := hal'.trans hal
  refine ⟨⟨hactive, hgave⟩, fun he row hrow => ?_, fun hp row hrow => ?_, fun hp hcol hdot row hrow => ?_⟩
  · rw [hactive.rows_eq hs₂.formed (hfetcher ▸ he) hgave] at hrow
    obtain ⟨host, hhost, rfl⟩ := List.mem_map.mp hrow
    obtain ⟨doc, -, hstems⟩ := hactive.stems hs₂.formed hgave.1 host hhost
    exact ⟨doc, (hfetcher ▸ hstems).of_alike halike⟩
  · obtain ⟨d, hu, hcut⟩ := hgave.exists_uncut (hfetcher ▸ hp)
    obtain ⟨whole, hwhole, hget⟩ := rows_cut hcut hrow
    obtain ⟨m, hm, hmade⟩ := (hactive.flat hs₂.formed (hfetcher ▸ hp) hu).exists_member whole hwhole
    obtain ⟨past, batch, ahead, ho⟩ := hactive.exists_open
    obtain ⟨doc, he, hstored⟩ := ho.exists_stored (List.mem_map_of_mem hm)
    refine ⟨doc, halike.plan_eq ▸ hfetcher ▸ hstored, fun name hn => ?_⟩
    rw [hget, if_pos hs₂.isRoot, halike.columns_eq, Projection.get?_of_mem_spreads (fun b hb => ?_) hmade, he,
      Entity.ofDocument, Fields.get?_mapValues]
    obtain ⟨i, child, k, hc, -, rfl⟩ := mem_held.mp hb
    obtain ⟨child', hc', hac⟩ := halike.exists_mem (List.mem_of_getElem? hc)
    exact hac.edge_eq ▸ hn child' hc'
  · have hu := hgave.uncut (hfetcher ▸ hp) fun _ => halike.columns_eq.trans hcol
    obtain ⟨doc, himports⟩ := hactive.imports hs₂.formed (hfetcher ▸ hp)
      (hfetcher ▸ hdot.of_alike halike.symm) hu row hrow
    exact ⟨doc, (hfetcher ▸ himports).of_alike halike⟩

/-- The orders of the small store, with their customers and products as columns. -/
theorem forall_row_stems_shop : ∃ (g g₁ g₂ : Graph) (c : Collection), g.Built ∧ g.Reached g₁ ∧
    g₁.fetch = (.ok (.batch c), g₂) ∧ c.rows.length = 2 ∧
    ∀ row ∈ c.rows, ∃ doc, g.root.Imports g.fetcher.registry doc row.get? := by
  obtain ⟨root, after, g₁, g₂, c, hq, hr, hf, htest⟩ := Shop.exists_batch .projection
    (fun root c _ => c.rows.length == 2 && root.columns == [] && decide (root.Dotless (Shop.registry Shop.store)))
    (by decide +kernel)
  obtain ⟨⟨hlen, hcol⟩, hdot⟩ := by simpa only [Bool.and_eq_true] using htest
  have hb : (ofRoot (Shop.registry Shop.store) .projection 10 root).Built := .ofRoot (.ofConfig _ _) hq _ _ _
  exact ⟨_, g₁, g₂, c, hb, hr, hf, eq_of_beq hlen,
    (forall_row_stems hb hr hf).2.2.2 rfl (eq_of_beq hcol) (of_decide_eq_true hdot)⟩

end Graph

end PathQuery
