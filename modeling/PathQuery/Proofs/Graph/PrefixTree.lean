import PathQuery.Proofs.Graph.Pattern
import PathQuery.Proofs.Graph.Run
import PathQuery.Proofs.Graph.Shape

/-!
# Proofs/Graph/PrefixTree — the tree of a query is the tree of its prefixes

A tree of the right shape is read from its root: at each place stands one node, whose path, number, links and
request are told by the hops that lead to it.  So what is built for a query is its prefix tree, and no path is
ever claimed twice (`isPrefixTree_of_built`).
-/

namespace PathQuery

open PathQuery.Filter (Predicate PropertyPath)

/-! ## Nodes and places -/

namespace Node

variable {n m : Node}

theorem places_eq (n : Node) :
    n.places = [] :: n.children.flatMap fun child => child.places.map (child.edge.name :: ·) := by
  have hof : ∀ ns : List Node, (locatedOf ns).map (·.1) =
      ns.flatMap fun child => child.places.map (child.edge.name :: ·) := by
    intro ns
    induction ns with
    | nil => rfl
    | cons child rest ih =>
      rw [locatedOf, List.map_append, ih, List.flatMap_cons, places, List.map_map, List.map_map]
      rfl
  obtain ⟨plan, progress, children⟩ := n
  exact congrArg _ (hof children)

/-- Each node stands at one place. -/
theorem nodes_located (n : Node) : n.located.map (·.2) = n.all := by
  induction n using Node.induction with
  | node n ih =>
    have hof : ∀ ns : List Node, (∀ child ∈ ns, child.located.map (·.2) = child.all) →
        (locatedOf ns).map (·.2) = ns.flatMap all := by
      intro ns
      induction ns with
      | nil => exact fun _ => rfl
      | cons child rest ihr =>
        intro hall
        rw [locatedOf, List.map_append, List.map_map, List.flatMap_cons, ← hall child (.head _),
          ihr fun k hk => hall k (.tail _ hk)]
        rfl
    rw [all_eq]
    obtain ⟨plan, progress, children⟩ := n
    exact congrArg _ (hof children ih)

theorem exists_located (h : m ∈ n.all) : ∃ hops, (hops, m) ∈ n.located := by
  rw [← nodes_located] at h
  obtain ⟨⟨hops, _⟩, hm, rfl⟩ := List.mem_map.mp h
  exact ⟨hops, hm⟩

/-- A node is the root or a child of a node. -/
theorem eq_or_child_of_mem_all (h : m ∈ n.all) : m = n ∨ ∃ k ∈ n.all, m ∈ k.children := by
  induction n using Node.induction with
  | node n ih =>
    rw [all_eq, List.mem_cons, List.mem_flatMap] at h
    rcases h with rfl | ⟨child, hc, hm⟩
    · exact .inl rfl
    · rcases ih child hc hm with rfl | ⟨k, hk, hmk⟩
      · exact .inr ⟨n, mem_all_self n, hc⟩
      · exact .inr ⟨k, mem_all_child hc hk, hmk⟩

end Node

namespace Build

/-! ## Reading a tree of the right shape -/

variable {paths : List String} {parent : Option Nat} {path : String} {asks : List Ask} {n m : Node}
  {hops : List String}

/-- A node is at the path of its hops, and its request was changed as is asked there. -/
theorem Shaped.of_located (h : Shaped paths parent path asks n) (hm : (hops, m) ∈ n.located) :
    m.plan.path = pathAfter path hops ∧ paths[m.plan.id]? = some (pathAfter path hops) ∧
      applyAll (Ask.changesAt hops asks) (.ofEntity m.plan.request.entity) = .ok m.plan.request := by
  induction h generalizing hops m with
  | node own _ ih =>
    rcases Node.mem_located.mp hm with ⟨rfl, rfl⟩ | ⟨child, hc, rest, hrest, rfl⟩
    · exact ⟨own.path_eq, own.id, own.request⟩
    · rw [Ask.changesAt_cons]
      exact ih child hc hrest

/-- **The places are the prefixes.** -/
theorem Shaped.mem_places_iff (h : Shaped paths parent path asks n) :
    hops ∈ n.places ↔ hops ∈ prefixes (Ask.hopss asks) := by
  induction hops generalizing n parent path asks with
  | nil => exact ⟨fun _ => mem_prefixes.mpr (.inl rfl), fun _ => Node.mem_places.mpr (.inl rfl)⟩
  | cons hop rest ih =>
    rw [Node.mem_places, Ask.cons_mem_prefixes, ← h.own.mem_names]
    constructor
    · rintro (he | ⟨child, hc, rest', hr, he⟩)
      · obtain ⟨⟩ := he
      · obtain ⟨rfl, rfl⟩ := List.cons.inj he
        exact ⟨⟨child, hc, rfl⟩, (ih (h.child hc)).mp hr⟩
    · rintro ⟨⟨child, hc, rfl⟩, hr⟩
      exact .inr ⟨child, hc, rest, (ih (h.child hc)).mpr hr, rfl⟩

/-- No two nodes stand at one place. -/
theorem Shaped.nodup_places (h : Shaped paths parent path asks n) : n.places.Nodup := by
  induction h with
  | @node _ _ _ n own _ ih =>
    rw [Node.places_eq, List.nodup_cons, List.nodup_flatMap]
    refine ⟨fun hm => ?_, fun child hc => (ih child hc).map fun a b he => (List.cons.inj he).2, ?_⟩
    · obtain ⟨child, -, hm⟩ := List.mem_flatMap.mp hm
      obtain ⟨rest, -, he⟩ := List.mem_map.mp hm
      exact List.cons_ne_nil _ _ he
    · refine (List.pairwise_map.mp own.nodup_names).imp fun hne => ?_
      intro hops ha hb
      obtain ⟨a, -, rfl⟩ := List.mem_map.mp ha
      obtain ⟨b, -, he⟩ := List.mem_map.mp hb
      exact hne (List.cons.inj he).1.symm

theorem Shaped.of_mem_all (h : Shaped paths parent path asks n) (hm : m ∈ n.all) :
    ∃ parent path asks, Shaped paths parent path asks m := by
  induction h with
  | @node parent path asks n own child ih =>
    rw [Node.all_eq, List.mem_cons, List.mem_flatMap] at hm
    rcases hm with rfl | ⟨child, hc, hm⟩
    · exact ⟨_, _, _, .node own ‹_›⟩
    · exact ih child hc hm

/-- The node at a place is the only one there. -/
theorem Shaped.eq_of_located (h : Shaped paths parent path asks n) {k : Node}
    (hm : (hops, m) ∈ n.located) (hk : (hops, k) ∈ n.located) : m = k :=
  (Prod.mk.inj (List.inj_on_of_nodup_map h.nodup_places hm hk rfl)).2

/-! ## What the asks of a query come to -/

variable {r r' : Request}

/-- The predicates at a place become conditions in their order. -/
theorem conditions_of_predicates {ps : List Predicate}
    (h : applyAll (ps.map fun p => (Ask.ofPredicate p).change) r = .ok r') :
    ∃ conditions, ps.mapM (fun p =>
        (r.conditionOf p.path.field p.operator p.value).map (p.path.field, ·)) = .ok conditions ∧
      r' = { r with restriction := ⟨r.restriction.conditions ++ conditions⟩ } := by
  induction ps generalizing r with
  | nil =>
    cases h
    exact ⟨[], rfl, by rw [List.append_nil]⟩
  | cons p rest ih =>
    rw [List.map_cons, applyAll, foldlM_cons_eq_ok] at h
    obtain ⟨r₁, h₁, h⟩ := h
    obtain ⟨c, hc, rfl⟩ := ((r.safe_addPredicate _ _ _).of_ok h₁)
    obtain ⟨conditions, hmap, rfl⟩ := ih h
    refine ⟨(p.path.field, c) :: conditions, ?_, ?_⟩
    · rw [List.mapM_cons, hc]
      exact bind_eq_ok.mpr ⟨_, rfl, bind_eq_ok.mpr ⟨_, hmap, rfl⟩⟩
    · rw [Restriction.push, List.append_assoc]
      rfl

/-- The selected paths at a place become selected fields. -/
theorem selected_of_paths (ps : List PropertyPath) (r : Request) :
    applyAll (ps.map fun path => fun request => .ok (request.select path.field)) r =
      .ok { r with selected := (ps.map (·.field)).foldl (fun set name => Names.insert name set) r.selected } := by
  induction ps generalizing r with
  | nil => rfl
  | cons path rest ih => exact ih (r.select path.field)

theorem changesAt_ofQuery (hops : List String) (predicates : List Predicate) (selected : List String) :
    Ask.changesAt hops (Ask.ofQuery predicates selected) =
      ((predicates.filter (·.path.hops == hops)).map fun p => (Ask.ofPredicate p).change) ++
      ((selected.map PropertyPath.ofText).filter (·.hops == hops)).map fun path =>
        fun request => .ok (request.select path.field) := by
  rw [Ask.changesAt, Ask.ofQuery, List.filter_append, List.map_append, List.filter_map, List.map_map,
    List.filter_map, List.map_map, List.filter_map, List.map_map]
  rfl

end Build

/-! ## The prefix tree -/

/-- The prefixes of the paths in a query, in the order of their first appearance. -/
def queryPrefixes (predicates : List Predicate) (selected : List String) : List (List String) :=
  prefixes (predicates.map (·.path.hops) ++ selected.map fun path => (PropertyPath.ofText path).hops)

/-- A root is that of the prefix tree of a query. -/
structure Node.IsPrefixTree (resource : String) (predicates : List Predicate) (selected : List String)
    (root : Node) : Prop where
  /-- There is one place for each prefix, and one node at each place. -/
  places : root.places.Perm (queryPrefixes predicates selected) ∧ root.located.map (·.2) = root.all
  /-- Nodes have the numbers of their prefixes. -/
  numbered : ∀ hops m, (hops, m) ∈ root.located →
    (queryPrefixes predicates selected)[m.plan.id]? = some hops
  path : ∀ hops m, (hops, m) ∈ root.located → m.plan.path = "/".intercalate (resource :: hops)
  first : root.plan.id = 0 ∧ root.plan.parent = none
  /-- Every other node is a child of one node, the one that it knows as its parent. -/
  parent : ∀ k ∈ root.all, k ≠ root → ∃ m ∈ root.all, k.plan.parent = some m.plan.id
  linked : ∀ m ∈ root.all, ∀ k ∈ root.all, k.plan.parent = some m.plan.id ↔ k ∈ m.children
  /-- A node comes before its children, and each of these before the next. -/
  ascending : ∀ m ∈ root.all, (m.plan.id :: m.children.map (·.plan.id)).Pairwise (· < ·)
  conditions : ∀ hops m, (hops, m) ∈ root.located →
    (predicates.filter (·.path.hops == hops)).mapM (fun p =>
        (m.plan.request.conditionOf p.path.field p.operator p.value).map (p.path.field, ·)) =
      .ok m.plan.request.restriction.conditions
  fields : ∀ hops m, (hops, m) ∈ root.located → m.plan.request.selected =
    Names.ofList (((selected.map PropertyPath.ofText).filter (·.hops == hops)).map (·.field))

namespace Build

/-- The request at a place has the conditions and the selected fields that the query has there. -/
theorem request_of_query {hops : List String} {predicates : List Predicate} {selected : List String}
    {entity : EntityType} {r : Request}
    (h : applyAll (Ask.changesAt hops (Ask.ofQuery predicates selected)) (.ofEntity entity) = .ok r) :
    (predicates.filter (·.path.hops == hops)).mapM (fun p =>
        (r.conditionOf p.path.field p.operator p.value).map (p.path.field, ·)) =
      .ok r.restriction.conditions ∧
    r.selected = Names.ofList (((selected.map PropertyPath.ofText).filter (·.hops == hops)).map (·.field)) := by
  rw [changesAt_ofQuery, applyAll, List.foldlM_append, bind_eq_ok] at h
  obtain ⟨r₁, h₁, h⟩ := h
  obtain ⟨conditions, hmap, rfl⟩ := conditions_of_predicates h₁
  rw [← applyAll, selected_of_paths] at h
  cases h
  exact ⟨hmap, rfl⟩

variable {resource : String} {predicates : List Predicate} {selected : List String} {root : Node}
  {s : State}

theorem prefixes_ofQuery (predicates : List Predicate) (selected : List String) :
    prefixes (Ask.hopss (Ask.ofQuery predicates selected)) = queryPrefixes predicates selected := by
  rw [Ask.hopss, Ask.ofQuery, List.map_append, List.map_map, List.map_map]
  rfl

theorem nodup_queryPrefixes (predicates : List Predicate) (selected : List String) :
    (queryPrefixes predicates selected).Nodup := nodup_prefixes _

section Whole

variable (h : Whole resource (Ask.ofQuery predicates selected) root s)
include h

theorem Whole.places_perm : root.places.Perm (queryPrefixes predicates selected) := by
  refine (List.perm_ext_iff_of_nodup h.shaped.nodup_places (nodup_queryPrefixes _ _)).mpr fun hops => ?_
  rw [h.shaped.mem_places_iff, prefixes_ofQuery]

/-- The number of a node is the place of its prefix in their order. -/
theorem Whole.numbered {hops : List String} {m : Node} (hm : (hops, m) ∈ root.located) :
    (queryPrefixes predicates selected)[m.plan.id]? = some hops := by
  have hslash : ∀ hops ∈ queryPrefixes predicates selected, SlashFree hops := fun hops hh =>
    slashFree_of_mem_prefixes h.sound (prefixes_ofQuery predicates selected ▸ hh)
  obtain ⟨-, hid, -⟩ := h.shaped.of_located hm
  rw [h.paths_eq, prefixes_ofQuery, List.getElem?_map] at hid
  obtain ⟨hops', hget, he⟩ := Option.map_eq_some_iff.mp hid
  have hplace := h.places_perm.subset (Node.mem_places_iff.mpr ⟨m, hm⟩)
  rw [hget, pathAfter_inj (hslash _ (List.mem_of_getElem? hget)) (hslash _ hplace) he]

/-- **A number says which node it is**, through the prefix that has this number. -/
theorem Whole.eq_of_id {m k : Node} (hm : m ∈ root.all) (hk : k ∈ root.all)
    (he : m.plan.id = k.plan.id) : m = k := by
  obtain ⟨hops, hlm⟩ := Node.exists_located hm
  obtain ⟨hops', hlk⟩ := Node.exists_located hk
  have hhops := (h.numbered hlm).symm.trans ((congrArg _ he).trans (h.numbered hlk))
  cases hhops
  exact h.shaped.eq_of_located hlm hlk

theorem Whole.id_root : root.plan.id = 0 := by
  have hfirst : (queryPrefixes predicates selected)[0]? = some [] := by
    rw [queryPrefixes, prefixes, List.eraseDups_cons]
    rfl
  have hroot := h.numbered (Node.mem_located_self root)
  exact (List.getElem?_inj (List.getElem?_eq_some_iff.mp hroot).1 (nodup_queryPrefixes _ _)).mp
    (hroot.trans hfirst.symm)

theorem Whole.parent_of_child {m k : Node} (hm : m ∈ root.all) (hk : k ∈ m.children) :
    k.plan.parent = some m.plan.id := by
  obtain ⟨_, _, _, hm⟩ := h.shaped.of_mem_all hm
  exact (hm.child hk).own.parent_eq

/-- The children of a node are those that name it as their parent. -/
theorem Whole.parent_iff {m k : Node} (hm : m ∈ root.all) (hk : k ∈ root.all) :
    k.plan.parent = some m.plan.id ↔ k ∈ m.children := by
  refine ⟨fun he => ?_, h.parent_of_child hm⟩
  rcases Node.eq_or_child_of_mem_all hk with rfl | ⟨m', hm', hkm'⟩
  · rw [h.shaped.own.parent_eq] at he
    obtain ⟨⟩ := he
  · rw [h.parent_of_child hm' hkm'] at he
    rwa [h.eq_of_id hm hm' (Option.some.inj he).symm]

theorem Whole.isPrefixTree : root.IsPrefixTree resource predicates selected := by
  refine ⟨⟨h.places_perm, Node.nodes_located root⟩, fun hops m hm => h.numbered hm, fun hops m hm => ?_,
    ⟨h.id_root, h.shaped.own.parent_eq⟩, fun k hk hne => ?_, fun m hm k hk => h.parent_iff hm hk,
    fun m hm => ?_, fun hops m hm => ?_, fun hops m hm => ?_⟩
  · rw [(h.shaped.of_located hm).1, pathAfter_eq_intercalate]
  · obtain ⟨m, hm, hkm⟩ := (Node.eq_or_child_of_mem_all hk).resolve_left hne
    exact ⟨m, hm, h.parent_of_child hm hkm⟩
  · obtain ⟨_, _, _, hm⟩ := h.shaped.of_mem_all hm
    exact hm.own.ascending
  · exact (request_of_query (h.shaped.of_located hm).2.2).1
  · exact (request_of_query (h.shaped.of_located hm).2.2).2

end Whole

end Build

/-- A tree that is built is the prefix tree of its query. -/
theorem Node.isPrefixTree_of_ofQuery? {catalog after : Catalog} (hc : catalog.Reached) {resource : String}
    {predicates : List Predicate} {selected : List String} {root : Node}
    (h : Node.ofQuery? catalog resource predicates selected = (.ok root, after)) :
    root.IsPrefixTree resource predicates selected := by
  obtain ⟨hr, -⟩ := Prod.mk.inj h
  have hbuilds := Build.builds_tree hc.named resource predicates selected
  rw [Build.Builds] at hbuilds
  change (Build.tree resource predicates selected ⟨catalog, []⟩).1 = _ at hr
  generalize Build.tree resource predicates selected ⟨catalog, []⟩ = built at hbuilds hr
  obtain ⟨_ | root', s⟩ := built
  · obtain ⟨⟩ := hr
  · obtain rfl := Except.ok.inj hr
    exact hbuilds.isPrefixTree

/-- Building never fails for a path that has a node already. -/
theorem Node.ofQuery?_ne_alreadyExists {catalog : Catalog} (hc : catalog.Reached) (resource : String)
    (predicates : List Predicate) (selected : List String) (path r : String) :
    (Node.ofQuery? catalog resource predicates selected).1 ≠ .error (.state (.alreadyExists path r)) := by
  have hbuilds := Build.builds_tree hc.named resource predicates selected
  rw [Build.Builds] at hbuilds
  change (Build.tree resource predicates selected ⟨catalog, []⟩).1 ≠ _
  generalize Build.tree resource predicates selected ⟨catalog, []⟩ = built at hbuilds ⊢
  obtain ⟨f | _, s⟩ := built
  · intro h
    rw [Except.error.inj h] at hbuilds
    obtain ⟨⟩ := hbuilds
  · rintro ⟨⟩

/-- **The graph is the prefix tree of the query**, whatever the catalog: what is built for a query is the
tree of the prefixes of its paths, and building it never fails for a path that already exists. -/
theorem Node.isPrefixTree_of_built {catalog : Catalog} (hc : catalog.Reached) (resource : String)
    (predicates : List Predicate) (selected : List String) :
    (∀ path r, (Node.ofQuery? catalog resource predicates selected).1 ≠
      .error (.state (.alreadyExists path r))) ∧
    ∀ root, (Node.ofQuery? catalog resource predicates selected).1 = .ok root →
      root.IsPrefixTree resource predicates selected :=
  ⟨ofQuery?_ne_alreadyExists hc resource predicates selected,
    fun _ h => isPrefixTree_of_ofQuery? hc (Prod.ext h rfl)⟩

/-- The tree for orders with their customers and products, of which two fields are selected. -/
theorem Node.isPrefixTree_of_built_shop : ∃ (root : Node) (after : Catalog),
    Node.ofQuery? (Graph.Shop.catalog Graph.Shop.store) "Orders" Graph.Shop.predicates ["customer/id", "id"] =
      (.ok root, after) ∧
    root.IsPrefixTree "Orders" Graph.Shop.predicates ["customer/id", "id"] ∧
    root.places = [[], ["customer"], ["product"]] := by
  obtain ⟨root, after, hq, hplaces⟩ := Graph.Shop.exists_root (Graph.Shop.catalog Graph.Shop.store) "Orders"
    Graph.Shop.predicates ["customer/id", "id"] (·.places == [[], ["customer"], ["product"]])
    (by decide +kernel)
  exact ⟨root, after, hq, (Node.isPrefixTree_of_built (.ofConfig _ _) "Orders" Graph.Shop.predicates
    ["customer/id", "id"]).2 root (congrArg Prod.fst hq), eq_of_beq hplaces⟩

end PathQuery
