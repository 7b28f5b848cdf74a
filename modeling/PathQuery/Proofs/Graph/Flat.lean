import PathQuery.Proofs.Graph.Columns
import PathQuery.Proofs.Graph.Run

/-!
# Proofs/Graph/Flat — the rows that a node gives in a projection

A leaf gives its documents.  Any other node gives, for each host that it took for its last child, the rows
that the host makes with all that its children hold (`Active.flat`).  So the rows of a whole tree follow from
one fact about hosts, applied from the leaves up.
-/

namespace PathQuery

open Projection (spreads)

namespace Node

variable {f : Fetcher} {values : Option (List Value)} {n m : Node} {c : Collection}

/-- The edges of the children with the rows that they gave last. -/
def held (n : Node) : List (Navigation × List Entity) :=
  Projection.branches (n.children.map edge) n.progress.childResults

/-- What a node combines, before the rows of a root are cut down to the selected columns. -/
structure Uncut (n : Node) (c : Collection) : Prop where
  length_eq : n.progress.childResults.length = n.children.length
  combine_eq : Projection.combine n.plan.origin [] n.progress.results n.progress.childResults = .ok c

/-- A combination is one that is not cut down, cut down. -/
theorem exists_combine {origin : Origin} {wanted : List String} {results d : Collection}
    {children : List Collection} (h : Projection.combine origin wanted results children = .ok d) :
    ∃ c, Projection.combine origin [] results children = .ok c ∧ Projection.cut origin wanted c = .ok d := by
  rw [Projection.combine] at h ⊢
  cases hl : children.getLast? with
  | none =>
    rw [hl] at h
    exact ⟨results, rfl, h⟩
  | some last =>
    rw [hl] at h
    obtain ⟨edge, he, h⟩ := bind_eq_ok.mp h
    obtain ⟨seeded, hs, h⟩ := bind_eq_ok.mp h
    obtain ⟨edges, hedges, h⟩ := bind_eq_ok.mp h
    obtain ⟨combined, hc, h⟩ := bind_eq_ok.mp h
    exact ⟨combined, bind_eq_ok.mpr ⟨edge, he, bind_eq_ok.mpr ⟨seeded, hs, bind_eq_ok.mpr ⟨edges, hedges,
      bind_eq_ok.mpr ⟨combined, hc, rfl⟩⟩⟩⟩, h⟩

theorem Gave.exists_uncut (hg : Gave f n c) (hp : f.combination = .projection) : ∃ d, n.Uncut d ∧
    Projection.cut n.plan.origin (if n.isRoot then n.columns else []) d = .ok c := by
  obtain ⟨hlen, hcomb⟩ := hg
  rw [hp, Combination.combine] at hcomb
  obtain ⟨d, hd, hcut⟩ := exists_combine hcomb
  exact ⟨d, ⟨hlen, hd⟩, hcut⟩

theorem Gave.uncut (hg : Gave f n c) (hp : f.combination = .projection)
    (hw : n.isRoot = true → n.columns = []) : n.Uncut c := by
  have hwanted : (if n.isRoot then n.columns else []) = [] := by
    split
    · exact hw ‹_›
    · rfl
  obtain ⟨d, hd, hcut⟩ := hg.exists_uncut hp
  rw [hwanted] at hcut
  cases hcut
  exact hd

/-- **A child that has given results** is active, and what it gave is what it combined. -/
theorem Active.exists_uncut (hf : n.Formed) (ha : Active f values n) (hp : f.combination = .projection)
    {i : Nat} {child : Node} (hc : n.children[i]? = some child)
    (hd : n.progress.childResults[i]? = some c) :
    child ∈ n.children ∧ ∃ vals, Active f (some vals) child ∧ child.Uncut c := by
  have hmem := List.mem_of_getElem? hc
  obtain ⟨edge, hj⟩ := hf.joint hmem
  obtain ⟨vals, hactive, hgave⟩ := ha.exists_gave hc hd
  exact ⟨hmem, vals, hactive, hgave.uncut hp hj.columns_eq⟩

/-! ## What is held -/

theorem mem_held {b : Navigation × List Entity} : b ∈ n.held ↔ ∃ (i : Nat) (child : Node) (c : Collection),
      n.children[i]? = some child ∧ n.progress.childResults[i]? = some c ∧ b = (child.edge, c.rows) := by
  rw [held, Projection.branches, List.mem_iff_getElem?]
  refine exists_congr fun i => ?_
  rw [List.getElem?_zip_eq_some, List.getElem?_map, List.getElem?_map]
  constructor
  · rintro ⟨he, hr⟩
    obtain ⟨child, hc, he⟩ := Option.map_eq_some_iff.mp he
    obtain ⟨c, hk, hr⟩ := Option.map_eq_some_iff.mp hr
    exact ⟨child, c, hc, hk, Prod.ext he.symm hr.symm⟩
  · rintro ⟨child, c, hc, hk, rfl⟩
    rw [hc, hk]
    exact ⟨rfl, rfl⟩

theorem edges_held (hlen : n.progress.childResults.length = n.children.length) :
    n.held.map (·.1) = n.children.map edge := by
  rw [held, Projection.branches, ← List.unzip_fst, List.unzip_zip (by simp [hlen])]

/-- Results for each child, in the order of the edges. -/
theorem forall₂_edges {R : Collection → Navigation → Prop} {results : List Collection}
    (hlen : results.length = n.children.length) (h : ∀ (i : Nat) (child : Node) (d : Collection),
      n.children[i]? = some child → results[i]? = some d → R d child.edge) :
    List.Forall₂ R results (n.children.map edge) := by
  refine List.forall₂_iff_get.mpr ⟨by simp [hlen], fun i hi hi' => ?_⟩
  have hi' : i < n.children.length := by simpa using hi'
  simp only [List.get_eq_getElem, List.getElem_map]
  exact h i _ _ (List.getElem?_eq_getElem hi') (List.getElem?_eq_getElem hi)

/-! ## What is given -/

/-- What a node gives, in terms of what it holds. -/
structure Flat (n : Node) (c : Collection) : Prop where
  valid : c.Valid
  navigation : n.isRoot = false → c.navigation = n.progress.results.navigation
  tracks : ∀ field, field ≠ "" → n.progress.results.Tracks field → c.Tracks field
  rows : n.children = [] ∧ c.rows = n.progress.results.rows ∨
    ∃ last, n.held.getLast? = some last ∧ c.rows =
      (Collection.taken last.1 last.2 n.progress.results.members).flatMap fun m => spreads n.held m.entity

/-- **What a node gives in a projection.** -/
theorem Active.flat (hf : n.Formed) (ha : Active f values n) (hp : f.combination = .projection)
    (hu : n.Uncut c) : n.Flat c := by
  induction n using Node.induction generalizing values c with
  | node n ih =>
    obtain ⟨hlen, hcomb⟩ := hu
    obtain ⟨past, batch, ahead, ho⟩ := ha.exists_open
    have hchild : ∀ (i : Nat) (child : Node) (d : Collection), n.children[i]? = some child →
        n.progress.childResults[i]? = some d → d.Valid ∧ d.navigation = .ok child.edge := by
      intro i child d hc hd
      obtain ⟨hmem, vals, hactive, hu⟩ := ha.exists_uncut hf hp hc hd
      obtain ⟨edge, hj⟩ := hf.joint hmem
      obtain ⟨hv, hn, -, -⟩ := ih child hmem (hf.child hmem) hactive hu
      exact ⟨hv, (hn hj.inner).trans (hf.navigation_child hmem)⟩
    by_cases hleaf : n.children = []
    · rw [(childResults_eq_nil_iff hlen).mpr hleaf, Projection.combine_nil] at hcomb
      cases hcomb
      exact ⟨ho.valid, fun _ => rfl, fun _ _ ht => ht, .inl ⟨hleaf, rfl⟩⟩
    · have hne : n.progress.childResults ≠ [] := (childResults_eq_nil_iff hlen).not.mpr hleaf
      have hnav : List.Forall₂ (fun (d : Collection) (e : Navigation) => d.navigation = .ok e)
          n.progress.childResults (n.children.map edge) :=
        forall₂_edges hlen fun i child d hc hd => (hchild i child d hc hd).2
      have hvalid : ∀ d ∈ n.progress.childResults, d.Valid := by
        intro d hd
        obtain ⟨i, hi⟩ := List.mem_iff_getElem?.mp hd
        have hi' : i < n.children.length := hlen ▸ (List.getElem?_eq_some_iff.mp hi).1
        exact (hchild i _ d (List.getElem?_eq_getElem hi') hi).1
      obtain ⟨hnum, hl, last, hlast, hrows⟩ :=
        Projection.rows_combine hnav hne hvalid ho.valid ho.apart hcomb
      obtain ⟨-, horigin, -, htracks⟩ :=
        Projection.bare_layout n.plan.origin n.progress.results
      refine ⟨hnum.valid, fun _ => ?_, fun field hf ht => ?_, .inr ⟨last, hlast, hrows⟩⟩
      · rw [Collection.navigation_congr hl, Collection.navigation, Collection.navigation, horigin,
          hf.laid.origin]
      · exact (Collection.tracks_congr hl field).mpr ((htracks field).mpr ⟨ht, hf⟩)

/-- What a child has given knows the child's edge, and finds its rows as the child does. -/
theorem Active.flat_child (hf : n.Formed) (ha : Active f values n) (hp : f.combination = .projection)
    {i : Nat} {child : Node} (hc : n.children[i]? = some child)
    (hd : n.progress.childResults[i]? = some c) : child.Flat c ∧ c.navigation = .ok child.edge := by
  obtain ⟨hmem, vals, hactive, hu⟩ := ha.exists_uncut hf hp hc hd
  obtain ⟨edge, hj⟩ := hf.joint hmem
  have hflat := hactive.flat (hf.child hmem) hp hu
  exact ⟨hflat, (hflat.navigation hj.inner).trans (hf.navigation_child hmem)⟩

/-- Every row that is given is made by one of the documents of the node. -/
theorem Flat.exists_member (h : n.Flat c) :
    ∀ row ∈ c.rows, ∃ m ∈ n.progress.results.members, row ∈ spreads n.held m.entity := by
  intro row hrow
  rcases h.rows with ⟨hleaf, hrows⟩ | ⟨last, -, hrows⟩
  · rw [hrows] at hrow
    obtain ⟨m, hm, rfl⟩ := List.mem_map.mp hrow
    refine ⟨m, hm, ?_⟩
    rw [held, hleaf]
    exact List.mem_singleton.mpr rfl
  · rw [hrows] at hrow
    obtain ⟨m, hm, hrow⟩ := List.mem_flatMap.mp hrow
    exact ⟨m, (Collection.mem_taken.mp hm).1, hrow⟩

/-! ## Names without dots -/

/-- No field and no edge of a tree has a name with a dot, and no document has two fields of one name. -/
structure Dotless (r : Registry) (n : Node) : Prop where
  edges : ∀ m ∈ n.all, ∀ edge, m.plan.edge = some edge →
    DotFree edge.name ∧ DotFree edge.hostKey ∧ DotFree edge.relatedKey
  documents : ∀ m ∈ n.all, ∀ docs, r.documentsFor m.plan.request = .ok docs →
    ∀ doc ∈ docs, doc.names.Nodup ∧ ∀ name ∈ doc.names, DotFree name

instance (r : Registry) (n : Node) : Decidable (n.Dotless r) :=
  decidable_of_iff
    ((∀ m ∈ n.all, ∀ edge ∈ m.plan.edge,
        DotFree edge.name ∧ DotFree edge.hostKey ∧ DotFree edge.relatedKey) ∧
      ∀ m ∈ n.all, ∀ docs ∈ (r.documentsFor m.plan.request).toOption,
        ∀ doc ∈ docs, doc.names.Nodup ∧ ∀ name ∈ doc.names, DotFree name)
    ⟨fun ⟨he, hd⟩ => ⟨he, fun m hm docs h => hd m hm docs (h ▸ rfl)⟩,
    fun ⟨he, hd⟩ => ⟨he, fun m hm docs h => by
      cases hr : r.documentsFor m.plan.request with
      | error f => rw [hr] at h; obtain ⟨⟩ := h
      | ok found => rw [hr] at h; cases h; exact hd m hm _ hr⟩⟩

variable {r : Registry}

theorem Dotless.child (h : n.Dotless r) {child : Node} (hc : child ∈ n.children) : child.Dotless r :=
  ⟨fun m hm => h.edges m (mem_all_child hc hm), fun m hm => h.documents m (mem_all_child hc hm)⟩

/-- The edge to a child has no names with dots. -/
theorem Dotless.edge_child (h : n.Dotless r) (hf : n.Formed) {child : Node} (hc : child ∈ n.children) :
    DotFree child.edge.name ∧ DotFree child.edge.hostKey ∧ DotFree child.edge.relatedKey := by
  obtain ⟨edge, hj⟩ := hf.joint hc
  rw [hj.edge_child]
  exact (h.child hc).edges child (mem_all_self child) edge hj.edge_eq

theorem Dotless.of_alike (h : n.Dotless r) (ha : n.Alike m) : m.Dotless r := by
  refine ⟨fun k hk => ?_, fun k hk => ?_⟩
  · obtain ⟨k', hk', hak⟩ := ha.symm.exists_all hk
    exact hak.plan_eq ▸ h.edges k' hk'
  · obtain ⟨k', hk', hak⟩ := ha.symm.exists_all hk
    exact hak.plan_eq ▸ h.documents k' hk'

/-- The rows of an open node are documents of its resource that satisfy its restriction. -/
theorem Open.exists_document {past batch ahead : List Document} (h : n.Open f values past batch ahead)
    {row : Entity} (hrow : row ∈ n.progress.results.rows) :
    ∃ doc docs, row = Entity.ofDocument doc ∧ doc ∈ batch ∧
      f.registry.documentsFor n.plan.request = .ok docs ∧ doc ∈ docs ∧
      (Fetcher.requestFor n values).restriction.admits doc = true := by
  obtain ⟨got, hsub, hrows, -⟩ := h.rows
  obtain ⟨docs, hdocs, hsource⟩ := h.source
  rw [hrows] at hrow
  obtain ⟨doc, hdoc, rfl⟩ := List.mem_map.mp hrow
  have hmem : doc ∈ Cursor.matching (Fetcher.requestFor n values).restriction docs := by
    rw [← hsource]
    exact List.mem_append_left _ (List.mem_append_right _ (hsub.subset hdoc))
  obtain ⟨hin, hadmits⟩ := List.mem_filter.mp hmem
  exact ⟨doc, docs, rfl, hsub.subset hdoc, hdocs, hin, hadmits⟩

/-- What a node was opened for are documents of its resource. -/
theorem Open.exists_sublist {past batch ahead : List Document} (h : n.Open f values past batch ahead) :
    ∃ docs, f.registry.documentsFor n.plan.request = .ok docs ∧ (past ++ batch ++ ahead).Sublist docs := by
  obtain ⟨docs, hdocs, hsource⟩ := h.source
  exact ⟨docs, hdocs, hsource ▸ List.filter_sublist⟩

/-- **A child after another is asked for** the values of the hosts that join with the results of that one. -/
theorem Open.mem_valuesFor_succ {past batch ahead : List Document} (h : n.Open f values past batch ahead)
    {i : Nat} {child : Node} {edge before : Navigation} (he : child.plan.edge = some edge)
    (hd : n.progress.childResults[i]? = some c) (hn : c.navigation = .ok before) {vals : List Value}
    (hv : Fetcher.valuesFor n (i + 1) child = .ok vals) {v : Value} :
    v ∈ vals ↔ ∃ m ∈ n.progress.results.members, (∃ row ∈ c.rows, before.joins m.entity row = true) ∧
      ∃ key, m.entity.keyOf edge.hostKey = .ok key ∧ v = key.toValue := by
  rw [Fetcher.valuesFor, he] at hv
  simp only [hd] at hv
  obtain ⟨joined, hjoined, hv⟩ := bind_eq_ok.mp hv
  obtain ⟨hvalid, hmem⟩ := Collection.mem_joining h.valid h.apart hn hjoined
  simp only [hvalid.mem_distinctValues hv, hmem, and_assoc]

theorem Open.names_of_mem {past batch ahead : List Document} (h : n.Open f values past batch ahead)
    (hd : n.Dotless f.registry) {m : Member} (hm : m ∈ n.progress.results.members) :
    m.entity.names.Nodup ∧ ∀ name ∈ m.entity.names, DotFree name := by
  obtain ⟨doc, docs, he, -, hdocs, hdoc, -⟩ := h.exists_document (List.mem_map_of_mem hm)
  rw [he, Entity.ofDocument, Fields.names_mapValues]
  exact hd.documents n (mem_all_self n) docs hdocs doc hdoc

/-- The edges to the children are told apart, and no row under them has two fields of one name. -/
theorem Formed.separate (hf : n.Formed) (hd : n.Dotless r)
    (hlen : n.progress.childResults.length = n.children.length)
    (hnodup : ∀ (i : Nat) (child : Node) (d : Collection), n.children[i]? = some child →
      n.progress.childResults[i]? = some d → ∀ row ∈ d.rows, row.names.Nodup) :
    Projection.Separate n.held := by
  refine ⟨fun b hb => ?_, ?_, fun b hb row hrow => ?_⟩
  · obtain ⟨i, child, d, hc, -, rfl⟩ := mem_held.mp hb
    obtain ⟨hname, hkey, -⟩ := hd.edge_child hf (List.mem_of_getElem? hc)
    exact ⟨hname, hkey⟩
  · rw [← List.pairwise_map (f := Prod.fst) (R := fun a b : Navigation => a.name ≠ b.name),
      edges_held hlen, List.pairwise_map]
    exact hf.distinct_edges
  · obtain ⟨i, child, d, hc, hk, rfl⟩ := mem_held.mp hb
    exact hnodup i child d hc hk row hrow

/-- The rows that a document makes have its fields, and under each edge nothing or a row. -/
theorem Open.columned {past batch ahead : List Document} (h : n.Open f values past batch ahead)
    (hd : n.Dotless f.registry) (hs : Projection.Separate n.held) {m : Member}
    (hm : m ∈ n.progress.results.members) {row : Entity} (hrow : row ∈ spreads n.held m.entity) :
    Projection.Columned n.held m.entity row := by
  obtain ⟨hnodup, hdot⟩ := h.names_of_mem hd hm
  exact Projection.columned_of_mem_spreads hs hnodup hdot hrow

/-- **Every row that a node gives** is made by one of its documents, from rows under different edges. -/
theorem Active.columned (hf : n.Formed) (ha : Active f values n) (hp : f.combination = .projection)
    (hd : n.Dotless f.registry) (hu : n.Uncut c) :
    Projection.Separate n.held ∧ ∀ row ∈ c.rows, ∃ m ∈ n.progress.results.members,
      row ∈ spreads n.held m.entity ∧ Projection.Columned n.held m.entity row := by
  induction n using Node.induction generalizing values c with
  | node n ih =>
    obtain ⟨past, batch, ahead, ho⟩ := ha.exists_open
    have hseparate : Projection.Separate n.held := by
      refine hf.separate hd hu.length_eq fun i child d hc hk row hrow => ?_
      obtain ⟨hmem, vals, hactive, hud⟩ := ha.exists_uncut hf hp hc hk
      obtain ⟨-, hcol⟩ := ih child hmem (hf.child hmem) hactive (hd.child hmem) hud
      obtain ⟨m, -, -, hcol⟩ := hcol row hrow
      exact hcol.nodup
    refine ⟨hseparate, fun row hrow => ?_⟩
    obtain ⟨m, hm, hrow⟩ := (ha.flat hf hp hu).exists_member row hrow
    exact ⟨m, hm, hrow, ho.columned hd hseparate hm hrow⟩

end Node

end PathQuery
