import PathQuery.Proofs.Graph.Pattern
import PathQuery.Proofs.Value

/-!
# Proofs/Graph/Drawn — a row is drawn from one document at each of some places

A row of a projection is a document of its node to which, edge after edge, either nothing is added or the
columns of a row that was made in the same way below the edge and joins with it (`Drawn`).  So one map says at
which places the row was combined with which documents; every row that a node gives has such a map
(`Active.exists_drawn`), and where no name has a dot, the row has in the column of a field what the document at
the column's place has in the field, and nothing where there is no document (`Drawn.get?_column`).
-/

namespace PathQuery

open Projection (spreads withColumns)

/-! ## Documents by places -/

/-- The documents that a row is drawn from, by the names of the edges that lead to them. -/
abbrev Draw := List String → Option Document

/-- The documents behind an edge. -/
def Draw.under (docs : Draw) (edge : String) : Draw := fun hops => docs (edge :: hops)

/-- One document, and none behind any edge. -/
def Draw.single (doc : Document) : Draw
  | [] => some doc
  | _ :: _ => none

/-- Some documents put behind an edge, in place of what is there. -/
def Draw.graft (docs : Draw) (edge : String) (below : Draw) : Draw
  | [] => docs []
  | hop :: hops => if hop = edge then below hops else docs (hop :: hops)

namespace Draw

variable {docs below : Draw} {edge name : String}

@[simp] theorem under_graft_self : (docs.graft edge below).under edge = below :=
  funext fun _ => if_pos rfl

theorem under_graft_of_ne (h : name ≠ edge) : (docs.graft edge below).under name = docs.under name :=
  funext fun _ => if_neg h

end Draw

/-! ## Stored documents -/

/-- Whether a document is stored in the resource of a request and satisfies its restriction. -/
def Stored (r : Registry) (request : Request) (doc : Document) : Prop :=
  ∃ docs, r.documentsFor request = .ok docs ∧ doc ∈ docs ∧ request.restriction.admits doc = true

instance (r : Registry) (request : Request) (doc : Document) : Decidable (Stored r request doc) :=
  decidable_of_iff
      (∃ docs ∈ (r.documentsFor request).toOption, doc ∈ docs ∧ request.restriction.admits doc = true) <|
    exists_congr fun docs => by cases r.documentsFor request <;> simp [Except.toOption]

theorem Restriction.admits_of_restrictTo {r : Restriction} {field : String} {values : List Value}
    {doc : Document} (h : (r.restrictTo field values).admits doc = true) : r.admits doc = true := by
  rw [restrictTo, admits_push, Bool.and_eq_true] at h
  exact h.1

namespace Node

variable {r : Registry} {f : Fetcher} {values : Option (List Value)} {n m : Node} {c : Collection}
  {docs : Draw} {doc : Document} {row wide : Entity}

/-- A stored document has no two fields of one name, and no name with a dot. -/
theorem Dotless.stored (h : n.Dotless r) (hs : Stored r n.plan.request doc) :
    doc.names.Nodup ∧ ∀ name ∈ doc.names, DotFree name := by
  obtain ⟨docs, hdocs, hmem, -⟩ := hs
  exact h.documents n (mem_all_self n) docs hdocs doc hmem

/-- A document has nothing under an edge. -/
theorem under_ofDocument (h : ∀ name ∈ doc.names, DotFree name) (edge : String) :
    (Entity.ofDocument doc).under edge = fun _ => none := by
  refine funext fun name => Fields.get?_eq_none_iff.mpr fun hin => ?_
  rw [Entity.ofDocument, Fields.names_mapValues] at hin
  exact not_dotFree_dotted _ _ (h _ hin)

theorem admits_of_requestFor {doc : Document}
    (h : (Fetcher.requestFor n values).restriction.admits doc = true) :
    n.plan.request.restriction.admits doc = true := by
  unfold Fetcher.requestFor at h
  split at h
  · exact Restriction.admits_of_restrictTo h
  · exact h

/-- The rows of an open node are stored documents. -/
theorem Open.exists_stored {past batch ahead : List Document} (h : n.Open f values past batch ahead)
    {row : Entity} (hrow : row ∈ n.progress.results.rows) :
    ∃ doc, row = Entity.ofDocument doc ∧ Stored f.registry n.plan.request doc := by
  obtain ⟨doc, docs, rfl, -, hdocs, hdoc, hadmits⟩ := h.exists_document hrow
  exact ⟨doc, rfl, docs, hdocs, hdoc, admits_of_requestFor hadmits⟩

/-! ## Rows and their documents -/

mutual

/-- Whether a row is drawn from stored documents: from one of a node, to which the columns of rows of its
children are added. -/
def Drawn (r : Registry) : Node → Draw → Entity → Prop
  | ⟨plan, _, children⟩, docs, row => ∃ doc, docs [] = some doc ∧ Stored r plan.request doc ∧
      (∀ name, (∀ child ∈ children, child.edge.name ≠ name) → docs.under name = fun _ => none) ∧
      DrawnOf r children docs doc (Entity.ofDocument doc) row

/-- Whether some children widen a row: each by nothing, or by the columns of a row of its own whose document
joins with that of the row. -/
def DrawnOf (r : Registry) : List Node → Draw → Document → Entity → Entity → Prop
  | [], _, _, row, wide => wide = row
  | child :: rest, docs, doc, row, wide =>
    (docs.under child.edge.name = fun _ => none) ∧ DrawnOf r rest docs doc row wide ∨
      ∃ origin related, docs [child.edge.name] = some origin ∧ child.edge.Links doc origin ∧
        child.Drawn r (docs.under child.edge.name) related ∧
        DrawnOf r rest docs doc (withColumns child.edge row related) wide

end

theorem drawn_iff : n.Drawn r docs row ↔ ∃ doc, docs [] = some doc ∧ Stored r n.plan.request doc ∧
    (∀ name, (∀ child ∈ n.children, child.edge.name ≠ name) → docs.under name = fun _ => none) ∧
    DrawnOf r n.children docs doc (Entity.ofDocument doc) row := by
  obtain ⟨plan, progress, children⟩ := n
  rw [Drawn]

/-- What widens a row depends only on the documents behind the edges. -/
theorem DrawnOf.congr {ns : List Node} {docs' : Draw} (h : DrawnOf r ns docs doc row wide)
    (he : ∀ child ∈ ns, docs'.under child.edge.name = docs.under child.edge.name) :
    DrawnOf r ns docs' doc row wide := by
  induction ns generalizing row with
  | nil => exact h
  | cons child rest ih =>
    have hrest := fun k hk => he k (.tail _ hk)
    rcases h with ⟨hnone, h⟩ | ⟨origin, related, ho, hl, hd, h⟩
    · exact .inl ⟨(he child (.head _)).trans hnone, ih h hrest⟩
    · refine .inr ⟨origin, related, (congrFun (he child (.head _)) []).trans ho, hl, ?_, ih h hrest⟩
      rwa [he child (.head _)]

/-- What a row is drawn from depends only on what is stored for the nodes of a tree, and on its edges. -/
theorem drawn_map {g : Node → Node} (hc : ∀ n, (g n).children = n.children.map g) (he : ∀ n, (g n).edge = n.edge)
    (hs : ∀ n doc, Stored r (g n).plan.request doc ↔ Stored r n.plan.request doc) :
    (g n).Drawn r docs row ↔ n.Drawn r docs row := by
  induction n using Node.induction generalizing docs row with
  | node n ih =>
    have hof : ∀ (ns : List Node) (doc : Document) (row wide : Entity), (∀ child ∈ ns, child ∈ n.children) →
        (DrawnOf r (ns.map g) docs doc row wide ↔ DrawnOf r ns docs doc row wide) := by
      intro ns doc
      induction ns with
      | nil => exact fun _ _ _ => Iff.rfl
      | cons child rest ihr =>
        intro row wide hns
        simp only [List.map_cons, DrawnOf, he, ih child (hns child (.head _)),
          ihr _ _ fun k hk => hns k (.tail _ hk)]
    simp only [drawn_iff, hc, hs, List.forall_mem_map, he, hof _ _ _ _ fun _ h => h]

theorem Drawn.of_alike (h : n.Drawn r docs row) (ha : n.Alike m) : m.Drawn r docs row := by
  have hblank : ∀ k : Node, k.blank.Drawn r docs row ↔ k.Drawn r docs row := fun k =>
    drawn_map (fun k => by rw [blank_eq]) (fun k => by rw [blank_eq]; rfl) fun k doc => by rw [blank_eq]
  rw [← hblank m, ← (ha : n.blank = m.blank), hblank]
  exact h

/-! ## Every row is drawn -/

/-- A row has the own fields of the document that it is drawn from. -/
theorem DrawnOf.get?_of_dotFree {ns : List Node} (h : DrawnOf r ns docs doc row wide) {name : String}
    (hn : DotFree name) : wide.get? name = row.get? name := by
  induction ns generalizing row with
  | nil => rw [DrawnOf] at h; rw [h]
  | cons child rest ih =>
    rcases h with ⟨-, h⟩ | ⟨origin, related, -, -, -, h⟩
    · exact ih h
    · rw [ih h, Projection.get?_withColumns_of_dotFree hn]

theorem Drawn.get?_of_dotFree (h : n.Drawn r docs row) (hd : docs [] = some doc) {name : String}
    (hn : DotFree name) : row.get? name = (doc.get? name).map .plain := by
  obtain ⟨doc', hdoc, -, -, hof⟩ := drawn_iff.mp h
  cases hd.symm.trans hdoc
  rw [hof.get?_of_dotFree hn, Entity.ofDocument, Fields.get?_mapValues]

/-- **Every row that some children make of a row** widens it. -/
theorem exists_drawnOf {ns : List Node} {kept : List Collection}
    (hk : List.Forall₂ (fun child d => ∀ x ∈ d.rows, ∃ docs, child.Drawn r docs x) ns kept)
    (hkey : ∀ child ∈ ns, DotFree child.edge.hostKey ∧ DotFree child.edge.relatedKey)
    (hne : ns.Pairwise fun a b => a.edge.name ≠ b.edge.name)
    (hrow : ∀ name, DotFree name → row.get? name = (doc.get? name).map .plain)
    (hm : wide ∈ spreads (Projection.branches (ns.map edge) kept) row) : ∃ docs, docs [] = some doc ∧
      (∀ name, (∀ child ∈ ns, child.edge.name ≠ name) → Draw.under docs name = fun _ => none) ∧
      DrawnOf r ns docs doc row wide := by
  induction hk generalizing row with
  | nil => exact ⟨.single doc, rfl, fun _ _ => rfl, List.mem_singleton.mp hm⟩
  | @cons child d ns kept hd _ ih =>
    obtain ⟨hhead, htail⟩ := List.pairwise_cons.mp hne
    rw [List.map_cons, Projection.branches, List.map_cons, List.zip_cons_cons, Projection.spreads_cons,
      List.mem_flatMap] at hm
    obtain ⟨row₁, h₁, hm⟩ := hm
    have hkeys := fun k hk => hkey k (.tail _ hk)
    rcases Projection.mem_spreadRow.mp h₁ with ⟨-, rfl⟩ | ⟨x, hx, hj, rfl⟩
    · obtain ⟨docs, hdoc, hrest, hof⟩ := ih hkeys htail hrow hm
      exact ⟨docs, hdoc, fun name hn => hrest name fun k hk => hn k (.tail _ hk),
        .inl ⟨hrest _ fun k hk => (hhead k hk).symm, hof⟩⟩
    · obtain ⟨docs, hdoc, hrest, hof⟩ := ih hkeys htail
        (fun name hn => (Projection.get?_withColumns_of_dotFree hn).trans (hrow name hn)) hm
      obtain ⟨below, hbelow⟩ := hd x hx
      obtain ⟨origin, ho, -⟩ := drawn_iff.mp hbelow
      have hl : child.edge.Links doc origin := by
        obtain ⟨hhost, hrelated⟩ := hkey child (.head _)
        have hget : (Entity.ofDocument doc).get? child.edge.hostKey = row.get? child.edge.hostKey := by
          rw [hrow _ hhost, Entity.ofDocument, Fields.get?_mapValues]
        have hget' : (Entity.ofDocument origin).get? child.edge.relatedKey = x.get? child.edge.relatedKey := by
          rw [hbelow.get?_of_dotFree ho hrelated, Entity.ofDocument, Fields.get?_mapValues]
        rw [Navigation.links_iff, Navigation.joins_iff, Projection.keyOf_congr hget,
          Projection.keyOf_congr hget']
        exact Navigation.joins_iff.mp hj
      refine ⟨docs.graft child.edge.name below, hdoc, fun name hn => ?_,
        .inr ⟨origin, x, ?_, hl, ?_, hof.congr fun k hk => ?_⟩⟩
      · rw [Draw.under_graft_of_ne (hn child (.head _)).symm]
        exact hrest name fun k hk => hn k (.tail _ hk)
      · exact (congrFun Draw.under_graft_self []).trans ho
      · rwa [Draw.under_graft_self]
      · exact Draw.under_graft_of_ne (hhead k hk).symm

/-- **Every row that a node gives** is drawn from its documents. -/
theorem Active.exists_drawn (hf : n.Formed) (ha : Active f values n) (hp : f.combination = .projection)
    (hd : n.Dotless f.registry) (hu : n.Uncut c) : ∀ row ∈ c.rows, ∃ docs, n.Drawn f.registry docs row := by
  induction n using Node.induction generalizing values c with
  | node n ih =>
    intro row hrow
    obtain ⟨past, batch, ahead, ho⟩ := ha.exists_open
    obtain ⟨m, hm, hrow⟩ := (ha.flat hf hp hu).exists_member row hrow
    obtain ⟨doc, he, hstored⟩ := ho.exists_stored (List.mem_map_of_mem hm)
    rw [he] at hrow
    have hkept : List.Forall₂ (fun child d => ∀ x ∈ d.rows, ∃ docs, child.Drawn f.registry docs x)
        n.children n.progress.childResults := by
      refine List.forall₂_iff_zip.mpr ⟨hu.length_eq.symm, fun {child d} hz => ?_⟩
      obtain ⟨i, hi⟩ := List.mem_iff_getElem?.mp hz
      obtain ⟨hc, hk⟩ := List.getElem?_zip_eq_some.mp hi
      obtain ⟨hmem, vals, hactive, hud⟩ := ha.exists_uncut hf hp hc hk
      exact ih child hmem (hf.child hmem) hactive (hd.child hmem) hud
    obtain ⟨docs, hdoc, hrest, hof⟩ := exists_drawnOf hkept (fun child hc => (hd.edge_child hf hc).2)
      hf.distinct_edges (fun name _ => by rw [Entity.ofDocument, Fields.get?_mapValues]) hrow
    exact ⟨docs, drawn_iff.mpr ⟨doc, hdoc, hstored, hrest, hof⟩⟩

/-! ## The columns of a drawn row -/

theorem DrawnOf.nodup {ns : List Node} (h : DrawnOf r ns docs doc row wide) (hn : row.names.Nodup) :
    wide.names.Nodup := by
  induction ns generalizing row with
  | nil => rw [DrawnOf] at h; rwa [h]
  | cons child rest ih =>
    rcases h with ⟨-, h⟩ | ⟨origin, related, -, -, -, h⟩
    · exact ih h hn
    · exact ih h (Projection.nodup_withColumns hn)

/-- No two fields of a drawn row have one name. -/
theorem Drawn.nodup (h : n.Drawn r docs row) (hd : n.Dotless r) : row.names.Nodup := by
  obtain ⟨doc, -, hstored, -, hof⟩ := drawn_iff.mp h
  refine hof.nodup ?_
  rw [Entity.ofDocument, Fields.names_mapValues]
  exact (hd.stored hstored).1

/-- A row keeps what stands under other edges than those of the children that widen it. -/
theorem DrawnOf.under_of_ne {ns : List Node} (h : DrawnOf r ns docs doc row wide)
    (hdot : ∀ child ∈ ns, DotFree child.edge.name) {name : String} (hn : DotFree name)
    (hne : ∀ child ∈ ns, child.edge.name ≠ name) : wide.under name = row.under name := by
  induction ns generalizing row with
  | nil => rw [DrawnOf] at h; rw [h]
  | cons child rest ih =>
    have hkeep := fun {row} (h : DrawnOf r rest docs doc row wide) =>
      ih h (fun k hk => hdot k (.tail _ hk)) fun k hk => hne k (.tail _ hk)
    rcases h with ⟨-, h⟩ | ⟨_, related, -, -, -, h⟩
    · exact hkeep h
    · rw [hkeep h]
      exact funext fun _ => Projection.under_withColumns_of_ne (hdot child (.head _)) hn (hne child (.head _))

/-- **Under the edge to a child** stands a row that is drawn from the documents there, if there are any. -/
theorem DrawnOf.under_child {ns : List Node} (h : DrawnOf r ns docs doc row wide)
    (hd : ∀ child ∈ ns, child.Dotless r ∧ DotFree child.edge.name)
    (hne : ns.Pairwise fun a b => a.edge.name ≠ b.edge.name)
    (hrow : ∀ child ∈ ns, row.under child.edge.name = fun _ => none) {child : Node} (hc : child ∈ ns) :
    (docs.under child.edge.name = fun _ => none) ∧ (wide.under child.edge.name = fun _ => none) ∨
      ∃ origin related, docs [child.edge.name] = some origin ∧ child.edge.Links doc origin ∧
        child.Drawn r (docs.under child.edge.name) related ∧ wide.under child.edge.name = related.get? := by
  induction ns generalizing row with
  | nil => obtain ⟨⟩ := hc
  | cons first rest ih =>
    obtain ⟨hhead, htail⟩ := List.pairwise_cons.mp hne
    have hdr := fun k hk => hd k (.tail _ hk)
    have hrr := fun k hk => hrow k (.tail _ hk)
    obtain ⟨hdf, hdot⟩ := hd first (.head _)
    rcases List.mem_cons.mp hc with rfl | hc
    · have hkeep := fun {row} (h : DrawnOf r rest docs doc row wide) =>
        h.under_of_ne (fun k hk => (hdr k hk).2) hdot fun k hk => (hhead k hk).symm
      rcases h with ⟨hnone, h⟩ | ⟨origin, related, ho, hl, hrelated, h⟩
      · exact .inl ⟨hnone, (hkeep h).trans (hrow child (.head _))⟩
      · refine .inr ⟨origin, related, ho, hl, hrelated, (hkeep h).trans (funext fun name => ?_)⟩
        rw [Projection.under_withColumns (hrelated.nodup hdf), hrow child (.head _), Option.or_none]
    · rcases h with ⟨-, h⟩ | ⟨_, related, -, -, -, h⟩
      · exact ih h hdr htail hrr hc
      · refine ih h hdr htail (fun k hk => ?_) hc
        rw [← hrr k hk]
        exact funext fun _ => Projection.under_withColumns_of_ne hdot (hdr k hk).2 (hhead k hk)

/-- **What a row has in a column** is what the document at the place of the column has in its field. -/
theorem Drawn.get?_column (h : n.Drawn r docs row) (hf : n.Formed) (hd : n.Dotless r) {hops : List String}
    (hh : hops ∈ n.places) {field : String} (hfield : DotFree field) :
    row.get? (column hops field) = ((docs hops).bind (·.get? field)).map .plain := by
  induction hops generalizing n docs row with
  | nil =>
    obtain ⟨doc, hdoc, -⟩ := drawn_iff.mp h
    rw [column, h.get?_of_dotFree hdoc hfield, hdoc, Option.bind_some]
  | cons hop rest ih =>
    obtain ⟨child, hc, rest', hrest, he⟩ := (mem_places.mp hh).resolve_left (List.cons_ne_nil _ _)
    obtain ⟨rfl, rfl⟩ := List.cons.inj he
    obtain ⟨doc, -, hstored, -, hof⟩ := drawn_iff.mp h
    have hbelow := hof.under_child (fun k hk => ⟨hd.child hk, (hd.edge_child hf hk).1⟩) hf.distinct_edges
      (fun k _ => under_ofDocument (hd.stored hstored).2 k.edge.name) hc
    rw [column, ← Entity.under, show docs (child.edge.name :: rest) = docs.under child.edge.name rest from rfl]
    rcases hbelow with ⟨hdocs, hwide⟩ | ⟨_, related, -, -, hrelated, hwide⟩
    · rw [hdocs, hwide]
      rfl
    · rw [hwide]
      exact ih hrelated (hf.child hc) (hd.child hc) hrest

end Node

end PathQuery
