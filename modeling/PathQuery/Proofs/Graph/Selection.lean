import PathQuery.Proofs.Graph.Drawn
import PathQuery.Proofs.Graph.PrefixTree
import PathQuery.Proofs.Graph.Unselected

/-!
# Proofs/Graph/Selection — the columns that are selected and the columns that are made

The columns of a selection are named from the root down, those of a row from the leaves up.  Both put points
between the names of the edges and the field, but the first starts with no name at all, and takes an edge
without a name for none; so an edge without a name that leads away from the root is lost in the selection and
kept in the row (`mem_columns_iff`).  All other selected columns are given: a row is the one that the same run
makes without selected fields, cut down, and has what the documents have that it was combined with
(`Graph.selected_columns`).
-/

namespace PathQuery

open PathQuery.Filter (Predicate PropertyPath)

namespace Node

variable {n m root : Node} {r : Registry} {hops : List String} {field : String}

/-! ## The selected columns -/

/-- The column that is selected for a field at the end of some edges, behind a name. -/
def selectedColumn (outer : String) : List String → String → String
  | [], field => qualified outer field
  | hop :: rest, field => selectedColumn (qualified outer hop) rest field

theorem qualified_of_ne {outer : String} (h : outer ≠ "") (name : String) :
    qualified outer name = s!"{outer}.{name}" := if_neg h

theorem dotted_ne_empty (name rest : String) : s!"{name}.{rest}" ≠ "" := fun h =>
  not_dotFree_dotted name rest (h ▸ by decide)

/-- Behind a name, the selected column is that of the row. -/
theorem selectedColumn_of_ne {outer : String} (h : outer ≠ "") (hops : List String) (field : String) :
    selectedColumn outer hops field = s!"{outer}.{column hops field}" := by
  induction hops generalizing outer with
  | nil => exact qualified_of_ne h field
  | cons hop rest ih =>
    rw [selectedColumn, qualified_of_ne h, ih (dotted_ne_empty _ _)]
    refine String.toList_inj.mp ?_
    simp only [column, toList_dotted, List.append_assoc, List.cons_append]

/-- **At first, edges without a name are passed over.** -/
theorem selectedColumn_empty (hops : List String) (field : String) :
    selectedColumn "" hops field = column (hops.dropWhile (· == "")) field := by
  induction hops with
  | nil => rfl
  | cons hop rest ih =>
    rw [selectedColumn, qualified, if_pos rfl, List.dropWhile_cons]
    split
    · rename_i h
      rw [eq_of_beq h, ih]
    · rename_i h
      exact selectedColumn_of_ne (fun he => h (beq_iff_eq.mpr he)) rest field

/-- The selected columns of a tree, node by node. -/
theorem mem_columnsUnder_iff (hf : n.Formed) {outer inner : String}
    (hi : (n.plan.edge.map fun edge => qualified outer edge.name).getD outer = inner) {col : String} :
    col ∈ n.columnsUnder outer ↔ ∃ hops m, (hops, m) ∈ n.located ∧
      ∃ field ∈ m.plan.request.selected, col = selectedColumn inner hops field := by
  induction n using Node.induction generalizing outer inner with
  | node n ih =>
    have hunder : n.columnsUnder outer =
        n.plan.request.selected.map (qualified inner) ++ n.children.flatMap (columnsUnder inner) := by
      obtain ⟨plan, progress, children⟩ := n
      rw [columnsUnder, columnsOf_eq, hi]
    have hchild : ∀ child ∈ n.children, (col ∈ child.columnsUnder inner ↔
        ∃ hops m, (hops, m) ∈ child.located ∧ ∃ field ∈ m.plan.request.selected,
          col = selectedColumn inner (child.edge.name :: hops) field) := by
      intro child hc
      obtain ⟨edge, hj⟩ := hf.joint hc
      exact ih child hc (hf.child hc) (by rw [hj.edge_eq, hj.edge_child]; rfl)
    rw [hunder, List.mem_append, List.mem_map, List.mem_flatMap]
    constructor
    · rintro (⟨field, hfield, rfl⟩ | ⟨child, hc, hcol⟩)
      · exact ⟨[], n, mem_located_self n, field, hfield, rfl⟩
      · obtain ⟨hops, m, hm, field, hfield, rfl⟩ := (hchild child hc).mp hcol
        exact ⟨_, m, mem_located_child hc hm, field, hfield, rfl⟩
    · rintro ⟨hops, m, hm, field, hfield, rfl⟩
      rcases mem_located.mp hm with ⟨rfl, rfl⟩ | ⟨child, hc, rest, hrest, rfl⟩
      · exact .inl ⟨field, hfield, rfl⟩
      · exact .inr ⟨child, hc, (hchild child hc).mpr ⟨rest, m, hrest, field, hfield, rfl⟩⟩

/-- The names on the way to a place have no dots. -/
theorem Dotless.dotFree_of_mem_places (h : n.Dotless r) (hf : n.Formed) (hh : hops ∈ n.places) :
    ∀ hop ∈ hops, DotFree hop := by
  induction hops generalizing n with
  | nil => exact fun _ hm => absurd hm List.not_mem_nil
  | cons hop rest ih =>
    obtain ⟨child, hc, rest', hrest, he⟩ := (mem_places.mp hh).resolve_left (List.cons_ne_nil _ _)
    obtain ⟨rfl, rfl⟩ := List.cons.inj he
    exact List.forall_mem_cons.mpr ⟨(h.edge_child hf hc).1, ih (h.child hc) (hf.child hc) hrest⟩

/-! ## The columns that a query selects -/

section Query

variable {resource : String} {predicates : List Predicate} {selected : List String}

/-- A field is selected at a place exactly if a selected path leads there. -/
theorem IsPrefixTree.exists_selected_iff (h : root.IsPrefixTree resource predicates selected) :
    (∃ m, (hops, m) ∈ root.located ∧ field ∈ m.plan.request.selected) ↔
      ⟨hops, field⟩ ∈ selected.map PropertyPath.ofText := by
  have hmem : ∀ m, (hops, m) ∈ root.located →
      (field ∈ m.plan.request.selected ↔ ⟨hops, field⟩ ∈ selected.map PropertyPath.ofText) := by
    intro m hm
    rw [h.fields hops m hm, Names.mem_ofList]
    constructor
    · intro hfield
      obtain ⟨path, hpath, rfl⟩ := List.mem_map.mp hfield
      obtain ⟨hpath, hhops⟩ := List.mem_filter.mp hpath
      rwa [← eq_of_beq hhops]
    · intro hpath
      exact List.mem_map.mpr ⟨⟨hops, field⟩, List.mem_filter.mpr ⟨hpath, beq_self_eq_true hops⟩, rfl⟩
  constructor
  · rintro ⟨m, hm, hfield⟩
    exact (hmem m hm).mp hfield
  · intro hpath
    have hplace : hops ∈ queryPrefixes predicates selected := by
      refine mem_prefixes.mpr (.inr ⟨hops, List.mem_append_right _ ?_, List.prefix_rfl⟩)
      obtain ⟨path, hmem, he⟩ := List.mem_map.mp hpath
      exact List.mem_map.mpr ⟨path, hmem, congrArg PropertyPath.hops he⟩
    obtain ⟨m, hm⟩ := mem_places_iff.mp (h.places.1.mem_iff.mpr hplace)
    exact ⟨m, hm, (hmem m hm).mpr hpath⟩

/-- **The columns of the root** are those of the selected paths, without the edges at their front that have no
name. -/
theorem IsPrefixTree.mem_columns_iff (h : root.IsPrefixTree resource predicates selected) (hf : root.Formed)
    (he : root.plan.edge = none) {col : String} : col ∈ root.columns ↔
      ∃ path ∈ selected.map PropertyPath.ofText, col = column (path.hops.dropWhile (· == "")) path.field := by
  have hinner : (root.plan.edge.map fun edge => qualified "" edge.name).getD "" = "" := by rw [he]; rfl
  rw [columns, mem_columnsUnder_iff hf hinner]
  simp only [selectedColumn_empty]
  constructor
  · rintro ⟨hops, m, hm, field, hfield, rfl⟩
    exact ⟨⟨hops, field⟩, h.exists_selected_iff.mp ⟨m, hm, hfield⟩, rfl⟩
  · rintro ⟨path, hpath, rfl⟩
    obtain ⟨m, hm, hfield⟩ := h.exists_selected_iff.mpr hpath
    exact ⟨_, m, hm, _, hfield, rfl⟩

/-- **A selected path has its column**, unless it starts with an edge without a name. -/
theorem IsPrefixTree.column_mem_columns_iff (h : root.IsPrefixTree resource predicates selected)
    (hf : root.Formed) (he : root.plan.edge = none) (hd : root.Dotless r)
    (hfields : ∀ path ∈ selected.map PropertyPath.ofText, DotFree path.field) {path : PropertyPath}
    (hpath : path ∈ selected.map PropertyPath.ofText) :
    column path.hops path.field ∈ root.columns ↔ path.hops.head? ≠ some "" := by
  rw [h.mem_columns_iff hf he]
  obtain ⟨hops, field⟩ := path
  cases hops with
  | nil => exact ⟨fun _ => by rintro ⟨⟩, fun _ => ⟨_, hpath, rfl⟩⟩
  | cons first rest =>
    rw [List.head?_cons, ne_eq, Option.some_inj]
    constructor
    · -- a column behind an edge without a name is none of those that are left
      rintro ⟨⟨hops, other⟩, hother, hcol⟩ rfl
      have hdot : ∀ hop ∈ hops, DotFree hop := by
        obtain ⟨m, hm, -⟩ := h.exists_selected_iff.mpr hother
        exact hd.dotFree_of_mem_places hf (mem_places_iff.mpr ⟨m, hm⟩)
      have hfirst := List.head?_dropWhile_not (· == "") hops
      have hsub := List.dropWhile_sublist (· == "") (l := hops)
      dsimp only at hcol
      rw [column] at hcol
      generalize hops.dropWhile (· == "") = left at hcol hfirst hsub
      cases left with
      | nil =>
        rw [column] at hcol
        exact not_dotFree_dotted _ _ (hcol ▸ hfields _ hother)
      | cons hop left =>
        obtain ⟨rfl, -⟩ := dotted_inj (by decide) (hdot hop (hsub.subset (.head _))) hcol
        obtain ⟨⟩ := hfirst
    · intro hne
      refine ⟨_, hpath, ?_⟩
      rw [List.dropWhile_cons, if_neg (fun h => hne (eq_of_beq h))]

end Query

/-! ## Trees without selected fields -/

theorem stored_unselected (n : Node) (doc : Document) :
    Stored r n.unselected.plan.request doc ↔ Stored r n.plan.request doc := by
  rw [plan_unselected]
  rfl

/-- What a row is drawn from does not depend on selected fields. -/
theorem drawn_unselected {docs : Draw} {row : Entity} : n.unselected.Drawn r docs row ↔ n.Drawn r docs row :=
  drawn_map children_unselected edge_unselected stored_unselected

theorem Dotless.unselected (h : n.Dotless r) : n.unselected.Dotless r where
  edges := forall_mem_all_unselected.mpr fun m hm => by rw [plan_unselected]; exact h.edges m hm
  documents := forall_mem_all_unselected.mpr fun m hm => by rw [plan_unselected]; exact h.documents m hm

end Node

namespace Graph

open Node

variable {g g₁ g₂ : Graph} {c u : Collection}

/-! ## Runs -/

/-- **Every row of a run without selected fields** is drawn from the documents of the tree. -/
theorem Sound.exists_drawn (hs : g.Sound) (hi : g.root.Idle) (hp : g.fetcher.combination = .projection)
    (hd : g.root.Dotless g.fetcher.registry) (hr : g.Reached g₁)
    (hf : g₁.unselected.fetch = (.ok (.batch u), g₂.unselected)) :
    ∀ whole ∈ u.rows, ∃ docs, g.root.Drawn g.fetcher.registry docs whole := by
  obtain ⟨hs₁, hfet, hal⟩ := (hr.unselected hs).sound (hs.unselected hi)
  obtain ⟨-, hfet', hal', -, -, hactive, hgave⟩ := hs₁.fetch hf
  have hs₂ := hs₁.after_fetch hf
  have hfetcher : g₂.unselected.fetcher = g.fetcher := hfet'.trans hfet
  have halike : g₂.unselected.root.Alike g.root.unselected := hal'.trans hal
  have hu := hgave.uncut (hfetcher ▸ hp) fun _ => columns_unselected g₂.root
  intro whole hwhole
  obtain ⟨docs, hdrawn⟩ := hactive.exists_drawn hs₂.formed (hfetcher ▸ hp)
    (hfetcher ▸ hd.unselected.of_alike halike.symm) hu whole hwhole
  exact ⟨docs, drawn_unselected.mp ((hfetcher ▸ hdrawn).of_alike halike)⟩

/-- **Selected columns and made columns agree**, but for edges without a name at the root: every row is one
that the same run makes without selected fields, cut down to the selected columns; and whatever documents that
row is drawn from, it has what they have in the selected fields, which the cut keeps unless the path starts
with an edge without a name. -/
theorem selected_columns {catalog after : Catalog} (hc : catalog.Reached) {resource : String}
    {predicates : List Predicate} {selected : List String} {root : Node} {registry : Registry} {size : Nat}
    (hq : Node.ofQuery? catalog resource predicates selected = (.ok root, after)) (hne : selected ≠ [])
    (hdot : root.Dotless registry) (hfields : ∀ path ∈ selected.map PropertyPath.ofText, DotFree path.field)
    (hr : (ofRoot registry .projection size root).Reached g₁) (hf : g₁.fetch = (.ok (.batch c), g₂)) :
    ∃ u, (ofRoot registry .projection size root).unselected.Reached g₁.unselected ∧
      g₁.unselected.fetch = (.ok (.batch u), g₂.unselected) ∧
      c.rows = u.rows.map (fun whole => whole.keep root.columns.contains) ∧
      ∀ whole ∈ u.rows, (∃ docs, root.Drawn registry docs whole) ∧
        ∀ docs, root.Drawn registry docs whole → ∀ path ∈ selected.map PropertyPath.ofText,
          whole.get? (column path.hops path.field) = ((docs path.hops).bind (·.get? path.field)).map .plain ∧
          (whole.keep root.columns.contains).get? (column path.hops path.field) =
            if path.hops.head? = some "" then none
            else ((docs path.hops).bind (·.get? path.field)).map .plain := by
  have hb : (ofRoot registry .projection size root).Built := .ofRoot hc hq _ _ _
  have hs := hb.sound
  have htree := isPrefixTree_of_ofQuery? hc hq
  have hcols : root.columns ≠ [] := by
    obtain ⟨path, hpath⟩ := List.exists_mem_of_ne_nil selected hne
    exact List.ne_nil_of_mem
      ((htree.mem_columns_iff hs.formed hs.edge).mpr ⟨_, List.mem_map_of_mem hpath, rfl⟩)
  obtain ⟨u, hu, hrows⟩ := exists_batch_unselected hs hr rfl hf
  refine ⟨u, hr.unselected hs, hu, hrows.trans (if_neg hcols), fun whole hwhole =>
    ⟨hs.exists_drawn hb.idle rfl hdot hr hu whole hwhole, fun docs hdrawn path hpath => ?_⟩⟩
  obtain ⟨m, hm, -⟩ := htree.exists_selected_iff.mpr hpath
  have hwide := hdrawn.get?_column hs.formed hdot (mem_places_iff.mpr ⟨m, hm⟩) (hfields path hpath)
  have hcolumn : root.columns.contains (column path.hops path.field) = true ↔ path.hops.head? ≠ some "" :=
    List.contains_iff_mem.trans (htree.column_mem_columns_iff hs.formed hs.edge hdot hfields hpath)
  refine ⟨hwide, ?_⟩
  rw [Fields.get?_keep, hwide, if_congr hcolumn rfl rfl, ite_not]

namespace Shop

/-- An order of a customer, which the edge without a name leads to. -/
def nameless : Store := ⟨.memory, [
  ("Entities", [entity "Order" "Orders" [("", "Customer", "buyer")], entity "Customer" "Customers" []]),
  ("Orders", [[("id", .int 1), ("buyer", .int 2)]]),
  ("Customers", [[("id", .int 2), ("tier", .int 3)]])]⟩

end Shop

/-- The order of the store with regions, with the region that its customer lives in. -/
theorem selected_columns_regions : ∃ (root : Node) (after : Catalog) (g₁ g₂ : Graph) (c u : Collection),
    Node.ofQuery? (Shop.catalog Shop.regional) "Orders" [] ["id", "customer/region/id"] = (.ok root, after) ∧
    g₁.fetch = (.ok (.batch c), g₂) ∧ g₁.unselected.fetch = (.ok (.batch u), g₂.unselected) ∧
    c.rows.map Entity.toDocument = [[("id", .int 1), ("customer.region.id", .int 7)]] ∧
    c.rows = u.rows.map (fun whole => whole.keep root.columns.contains) ∧
    ∀ whole ∈ u.rows, ∃ docs, root.Drawn (Shop.registry Shop.regional) docs whole ∧
      (whole.keep root.columns.contains).get? "customer.region.id" =
        ((docs ["customer", "region"]).bind (·.get? "id")).map .plain := by
  obtain ⟨root, after, g₁, g₂, c, hq, hr, hf, htest⟩ := Shop.exists_first Shop.regional .projection 1 []
    ["id", "customer/region/id"] (fun root _ c _ => decide (root.Dotless (Shop.registry Shop.regional)) &&
      c.rows.map Entity.toDocument == [[("id", .int 1), ("customer.region.id", .int 7)]]) (by decide +kernel)
  obtain ⟨hdot, hrows⟩ := by simpa only [Bool.and_eq_true, decide_eq_true_eq, beq_iff_eq] using htest
  obtain ⟨u, -, hu, hcut, hall⟩ := selected_columns (.ofConfig _ _) hq (List.cons_ne_nil _ _) hdot
    (by decide) hr hf
  refine ⟨root, after, g₁, g₂, c, u, hq, hf, hu, hrows, hcut, fun whole hwhole => ?_⟩
  obtain ⟨⟨docs, hdrawn⟩, hcolumns⟩ := hall whole hwhole
  exact ⟨docs, hdrawn, (hcolumns docs hdrawn ⟨["customer", "region"], "id"⟩ (by decide)).2⟩

/-- **A selected column can be lost**: the order is combined with its customer, whose tier was selected, but no
row that is given has the tier. -/
theorem exists_lost_column : ∃ (root : Node) (after : Catalog) (g₁ g₂ : Graph) (c u : Collection),
    Node.ofQuery? (Shop.catalog Shop.nameless) "Orders" [] ["id", "/tier"] = (.ok root, after) ∧
    root.Dotless (Shop.registry Shop.nameless) ∧
    (ofRoot (Shop.registry Shop.nameless) .projection 1 root).Reached g₁ ∧
    g₁.fetch = (.ok (.batch c), g₂) ∧ g₁.unselected.fetch = (.ok (.batch u), g₂.unselected) ∧
    PropertyPath.ofText "/tier" = ⟨[""], "tier"⟩ ∧
    ∃ whole ∈ u.rows, whole.keep root.columns.contains ∈ c.rows ∧
      (∃ docs customer, root.Drawn (Shop.registry Shop.nameless) docs whole ∧ docs [""] = some customer ∧
        customer.get? "tier" = some (.int 3)) ∧
      whole.get? (column [""] "tier") = some (.plain (.int 3)) ∧
      (whole.keep root.columns.contains).get? (column [""] "tier") = none := by
  obtain ⟨root, after, g₁, g₂, c, hq, hr, hf, htest⟩ := Shop.exists_first Shop.nameless .projection 1 []
    ["id", "/tier"] (fun root g₁ _ _ => decide (root.Dotless (Shop.registry Shop.nameless)) &&
      root.columns == ["id", "tier"] && root.places == [[], [""]] &&
      (Shop.given? g₁.unselected.fetch.1).any fun u => u.rows.map Entity.toDocument ==
        [[("id", .int 1), ("buyer", .int 2), (".id", .int 2), (".tier", .int 3)]]) (by decide +kernel)
  obtain ⟨⟨⟨hdot, hcols⟩, hplaces⟩, hmade⟩ := by
    simpa only [Bool.and_eq_true, decide_eq_true_eq, beq_iff_eq] using htest
  have hb : (ofRoot (Shop.registry Shop.nameless) .projection 1 root).Built := .ofRoot (.ofConfig _ _) hq _ _ _
  obtain ⟨u, hu, hrows⟩ := exists_batch_unselected hb.sound hr rfl hf
  have hrows := hrows.trans (if_neg (hcols ▸ List.cons_ne_nil _ _))
  rw [hu, Shop.given?, Option.any_some, beq_iff_eq, List.map_eq_singleton_iff] at hmade
  obtain ⟨whole, hwhole, hdoc⟩ := hmade
  obtain ⟨docs, hdrawn⟩ := hb.sound.exists_drawn hb.idle rfl hdot hr hu whole (hwhole ▸ .head _)
  have hplace : [""] ∈ root.places := hplaces ▸ by decide
  have hfield : DotFree "tier" := by decide
  have hget := hdrawn.get?_column hb.sound.formed hdot hplace hfield
  have htier : (docs [""]).bind (·.get? "tier") = some (.int 3) := by
    have hvalue : (whole.get? (column [""] "tier")).map FieldValue.toValue = some (.int 3) := by
      rw [← Fields.get?_mapValues, ← Entity.toDocument, hdoc]
      decide
    rwa [hget, Option.map_map, show FieldValue.toValue ∘ FieldValue.plain = id from rfl, Option.map_id] at hvalue
  obtain ⟨customer, hcustomer, htier'⟩ := Option.bind_eq_some_iff.mp htier
  refine ⟨root, after, g₁, g₂, c, u, hq, hdot, hr, hf, hu, by decide, whole, hwhole ▸ .head _, ?_,
    ⟨docs, customer, hdrawn, hcustomer, htier'⟩, ?_, ?_⟩
  · rw [hrows, hwhole]
    exact .head _
  · rw [hget, htier]
    rfl
  · rw [Fields.get?_keep, hcols]
    exact if_neg (by decide)

end Graph

end PathQuery
