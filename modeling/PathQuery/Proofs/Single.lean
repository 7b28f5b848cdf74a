import PathQuery.Proofs.Engine
import PathQuery.Proofs.Graph.Listing
import PathQuery.Proofs.Graph.PrefixTree

/-!
# Proofs/Single — queries for one entity are exact

The tree of a query that takes no edge is a root without children.  Its run deals out the documents that
its cursor gives, batch by batch, and these are the documents of the resource that satisfy all predicates.
So the rows do not depend on the batch size or on the combination (`Engine.answers_single`).
-/

namespace PathQuery

open PathQuery.Filter (Predicate)

/-! ## Documents that are asked for -/

/-- Whether a document satisfies a predicate, by the data type that its field has in a request. -/
def Request.meets (r : Request) (p : Predicate) (doc : Document) : Bool :=
  (r.conditionOf p.path.field p.operator p.value).toOption.any fun c => c.holdsAt (doc.lookup p.path.field)

/-- Documents with keys in a field, no two of them the same. -/
def KeyedApart (field : String) (docs : List Document) : Prop :=
  (∀ doc ∈ docs, doc.key? field ≠ none) ∧ docs.Pairwise fun a b => a.key? field ≠ b.key? field

instance (field : String) (docs : List Document) : Decidable (KeyedApart field docs) :=
  inferInstanceAs (Decidable (_ ∧ _))

theorem KeyedApart.isKeyed {field : String} {docs : List Document} (h : KeyedApart field docs)
    {doc : Document} (hd : doc ∈ docs) : (Entity.ofDocument doc).IsKeyed field := by
  obtain ⟨key, hkey⟩ := Option.ne_none_iff_exists'.mp (h.1 doc hd)
  exact ⟨key, (Document.keyOf_ofDocument doc field key).mpr hkey⟩

/-- The conditions of some predicates are satisfied together with the predicates. -/
theorem Request.all_meets {r : Request} {ps : List Predicate} {conditions : List (String × Condition)}
    (h : ps.mapM (fun p => (r.conditionOf p.path.field p.operator p.value).map (p.path.field, ·)) =
      .ok conditions) (doc : Document) :
    (conditions.all fun (field, c) => c.holdsAt (doc.lookup field)) = ps.all (r.meets · doc) := by
  induction ps generalizing conditions with
  | nil => cases h; rfl
  | cons p rest ih =>
    rw [List.mapM_cons, bind_eq_ok] at h
    obtain ⟨_, hp, h⟩ := h
    obtain ⟨c, hc, rfl⟩ := map_eq_ok.mp hp
    obtain ⟨conditions, hrest, h⟩ := bind_eq_ok.mp h
    cases h
    rw [List.all_cons, List.all_cons, ih hrest, meets, hc]
    rfl

/-! ## Roots without children -/

namespace Graph

open Node

variable {g : Graph} {docs : List Document}

/-- A prepared root without children that has yet to give some documents. -/
structure Lists (g : Graph) (docs : List Document) : Prop where
  sound : g.Sound
  leaf : g.root.children = []
  columns : g.root.columns = []
  opened : ∃ past batch, g.root.Open g.fetcher none past batch docs
  keyed : ∀ doc ∈ docs, ∀ field, g.root.progress.results.Tracks field → (Entity.ofDocument doc).IsKeyed field
  apart : BatchCursor.KeysApart g.root.progress.results (docs.map Entity.ofDocument)

theorem Lists.root (h : g.Lists docs) : g.root.Lists g.fetcher none docs :=
  ⟨h.leaf, fun _ => h.columns, h.opened, h.keyed, h.apart⟩

/-- A root with no more documents to give is exhausted. -/
theorem Lists.fetch_nil (h : g.Lists []) : g.fetch = (.ok .exhausted, g) :=
  fetch_eq_iff.mpr ⟨rfl, h.root.fetch_nil⟩

/-- **A fetch** gives the next documents, as many as a batch has. -/
theorem Lists.exists_fetch (h : g.Lists docs) (hne : docs ≠ []) : ∃ c g₁,
    g.fetch = (.ok (.batch c), g₁) ∧ g₁.fetcher = g.fetcher ∧ c.Valid ∧
      c.rows = (docs.take g.fetcher.bound).map Entity.ofDocument ∧ g₁.Lists (docs.drop g.fetcher.bound) := by
  obtain ⟨c, n', hf, hv, hrows, h'⟩ := h.root.exists_fetch hne
  have hfetch : g.fetch = (.ok (.batch c), { g with root := n' }) := fetch_eq_iff.mpr ⟨rfl, hf⟩
  obtain ⟨-, -, hal, -⟩ := h.sound.fetch hfetch
  exact ⟨c, _, hfetch, rfl, hv, hrows, h.sound.after_fetch hfetch, h'.leaf, hal.columns_eq.trans h.columns,
    h'.opened, h'.keyed, h'.apart⟩

/-- A fetch ends the run, or gives the next documents. -/
theorem Lists.fetch_cases (h : g.Lists docs) :
    docs = [] ∧ g.fetch = (.ok .exhausted, g) ∨ docs ≠ [] ∧ ∃ c g₁,
      g.fetch = (.ok (.batch c), g₁) ∧ g₁.fetcher = g.fetcher ∧ c.Valid ∧
        c.rows = (docs.take g.fetcher.bound).map Entity.ofDocument ∧ g₁.Lists (docs.drop g.fetcher.bound) := by
  by_cases hdocs : docs = []
  · subst hdocs
    exact .inl ⟨rfl, h.fetch_nil⟩
  · exact .inr ⟨hdocs, h.exists_fetch hdocs⟩

/-- **A drain deals out the documents** of a root without children. -/
theorem Lists.deals_drain (h : g.Lists docs) :
    g.drain.Deals g.fetcher.bound (docs.map Entity.ofDocument) := by
  refine drain_rule
    (Q := fun g run => ∀ docs, g.Lists docs → run.Deals g.fetcher.bound (docs.map Entity.ofDocument))
    (fun g f g₁ _ hf docs h => ?_) (fun g g₁ _ hf docs h => ?_) (fun g g₁ run _ hf _ docs h => ?_)
    (fun g g₁ c run _ hf ih docs h => ?_) h.sound docs h
  all_goals
    obtain ⟨rfl, he⟩ | ⟨hne, c', g₂, he, hfetcher, hv, hrows, h'⟩ := h.fetch_cases
  · obtain ⟨⟩ := he.symm.trans hf
  · obtain ⟨⟩ := he.symm.trans hf
  · exact ⟨rfl, rfl, List.forall_mem_nil _, List.forall_mem_nil _⟩
  · obtain ⟨⟩ := he.symm.trans hf
  · obtain ⟨⟩ := he.symm.trans hf
  · obtain ⟨⟩ := he.symm.trans hf
  · obtain ⟨⟩ := he.symm.trans hf
  · cases he.symm.trans hf
    have hdeals := ih _ h'
    rw [hfetcher, List.map_drop] at hdeals
    exact hdeals.push_take g.fetcher.bound_pos hv (mt List.map_eq_nil_iff.mp hne) (hrows.trans List.map_take)

/-- **The run of a tree without edges** deals out the documents that its request asks for. -/
theorem exists_run_deals {catalog after : Catalog} {resource : String} {predicates : List Predicate}
    {root : Node} {registry : Registry} (hc : catalog.Reached)
    (hq : ofQuery? catalog resource predicates [] = (.ok root, after)) (hleaf : root.children = [])
    (hdocs : registry.documentsFor root.plan.request = .ok docs)
    (hkeys : ∀ key, root.plan.request.entity.primaryKey = .ok (some key) →
      KeyedApart key (Cursor.matching root.plan.request.restriction docs))
    (combination : Combination) (batchSize : Nat) :
    ∃ run, (ofRoot registry combination batchSize root).run = .ok run ∧ run.Deals (max batchSize 1)
      ((Cursor.matching root.plan.request.restriction docs).map Entity.ofDocument) := by
  have hrooted := rooted_of_ofQuery? hc hq
  have hlaid := hrooted.fresh.formed.laid
  have hs : (ofRoot registry combination batchSize root).Sound := (Built.ofRoot hc hq _ _ _).sound
  have hcolumns := columns_of_ofQuery? hq
  have hrequest := Fetcher.requestFor_none root
  -- rows are found by the primary key alone, so it is the only field in which documents need keys
  have hkeyed : ∀ doc ∈ Cursor.matching root.plan.request.restriction docs, ∀ field,
      root.progress.results.Tracks field → (Entity.ofDocument doc).IsKeyed field := fun doc hd field ht => by
    refine (hkeys field (hlaid.key field (ht.resolve_right fun hi => ?_))).isKeyed hd
    rw [indexNames_of_ofQuery? hq hrooted.edge hleaf] at hi
    exact List.not_mem_nil hi
  have hapart : BatchCursor.KeysApart root.progress.results
      ((Cursor.matching root.plan.request.restriction docs).map Entity.ofDocument) := fun field hp =>
    Document.pairwise_keyOf (hkeys _ (hlaid.key field hp)).2
  obtain ⟨root', hopen, hlists⟩ := exists_openCursor_leaf
    (f := (ofRoot registry combination batchSize root).fetcher) none hlaid
    hrooted.fresh.idle.status hleaf (fun _ => hcolumns) hdocs (hrequest.symm ▸ hkeyed) (hrequest.symm ▸ hapart)
  rw [hrequest] at hlists
  have hprepare : (ofRoot registry combination batchSize root).prepareRoot =
      (.ok (), { ofRoot registry combination batchSize root with root := root' }) :=
    prepareRoot_eq_iff.mpr ⟨rfl, hopen⟩
  obtain ⟨-, hf, hal, -, hactive⟩ := hs.prepareRoot hprepare
  exact ⟨_, by rw [Graph.run, hprepare], Lists.deals_drain ⟨hs.of_alike hf hal (.inr hactive), hlists.leaf,
    hal.columns_eq.trans hcolumns, hlists.opened, hlists.keyed, hlists.apart⟩⟩

/-- A graph whose documents are not there does not run. -/
theorem run_of_documentsFor {f : Failure} (hi : g.root.Idle)
    (h : g.fetcher.registry.documentsFor g.root.plan.request = .error f) : g.run = .error f := by
  have hfetch : g.fetcher.registry.fetchBatches g.root.plan.request g.fetcher.batchSize = .error f := by
    rw [Registry.documentsFor] at h
    rw [Registry.fetchBatches, Registry.fetch]
    rcases hs : g.fetcher.registry.storeFor g.root.plan.request with f' | s
    · rw [hs] at h
      cases h
      rfl
    · rw [hs] at h
      obtain ⟨⟩ := h
  rw [Graph.run, prepareRoot, atRoot, Fetcher.openCursor, if_neg (not_not.mpr hi.status),
    Fetcher.requestFor_none, hfetch]

end Graph

/-! ## Queries -/

namespace Engine

variable {e : Engine} {q : Query} {predicates : List Predicate} {root : Node} {docs : List Document}

/-- A query without selected paths whose tree is a root alone, and the documents of its resource.  They
depend neither on the batch size nor on the combination. -/
structure AsksOne (e : Engine) (q : Query) (predicates : List Predicate) (root : Node)
    (docs : List Document) : Prop where
  select : q.select = []
  predicates_eq : q.predicates = .ok predicates
  built : ∃ after, Node.ofQuery? e.catalog q.entitySet predicates [] = (.ok root, after) ∧
    after.registry.documentsFor root.plan.request = .ok docs
  single : root.children = []

/-- The documents that satisfy all predicates. -/
def asked (predicates : List Predicate) (root : Node) (docs : List Document) : List Document :=
  docs.filter fun doc => predicates.all (root.plan.request.meets · doc)

/-- The documents that the request of a lone root asks for are those that satisfy all predicates. -/
theorem AsksOne.matching_eq (hc : e.catalog.Reached) (h : e.AsksOne q predicates root docs) :
    Cursor.matching root.plan.request.restriction docs = asked predicates root docs := by
  obtain ⟨after, hq, -⟩ := h.built
  have htree := Node.isPrefixTree_of_ofQuery? hc hq
  have hplaces : root.places = [[]] := by rw [Node.places_eq, h.single]; rfl
  have hhops : ∀ p ∈ predicates, p.path.hops = [] := fun p hp => by
    have hlisted : p.path.hops ∈ queryPrefixes predicates [] := mem_prefixes.mpr <| .inr
      ⟨_, List.mem_append_left _ (List.mem_map_of_mem hp), List.prefix_rfl⟩
    rw [← htree.places.1.mem_iff, hplaces] at hlisted
    exact List.mem_singleton.mp hlisted
  have hconditions := htree.conditions [] root (Node.mem_located_self root)
  rw [List.filter_eq_self.mpr fun p hp => by rw [hhops p hp]; rfl] at hconditions
  exact List.filter_congr fun doc _ => Request.all_meets hconditions doc

theorem batchSizeOf_eq (h : 0 < q.batchSize.getD e.batchSize) :
    e.batchSizeOf q = .ok (q.batchSize.getD e.batchSize) := by
  rw [batchSizeOf]
  split
  · omega
  · rfl

/-- The graph of a query is that of the tree for its predicates. -/
theorem graph_eq {after : Catalog} {size : Nat} (hp : q.predicates = .ok predicates)
    (hs : e.batchSizeOf q = .ok size)
    (hq : Node.ofQuery? e.catalog q.entitySet predicates q.select = (.ok root, after)) :
    e.graph q = (.ok (.ofRoot after.registry q.combination size root), { e with catalog := after }) := by
  simp only [graph, hp, hs]
  change (Except.map _ (Node.ofQuery? e.catalog q.entitySet predicates q.select).1, _) = _
  rw [hq]
  rfl

/-- **Queries for one entity are exact**, with any batch size and combination: the rows are the documents
of the resource that satisfy all predicates, in their order and with their fields, if they have different
keys in the declared primary key. -/
theorem answers_single (hc : e.catalog.Reached) (h : e.AsksOne q predicates root docs)
    (hkeys : ∀ key, root.plan.request.entity.primaryKey = .ok (some key) →
      KeyedApart key (asked predicates root docs))
    (combination : Combination) (batchSize : Option Nat) (hsize : 0 < batchSize.getD e.batchSize) :
    (∃ run, (e.run { q with combination, batchSize }).1 = .ok run ∧
      run.Deals (batchSize.getD e.batchSize) ((asked predicates root docs).map Entity.ofDocument)) ∧
    (e.collect { q with combination, batchSize }).1 =
      .ok ((asked predicates root docs).map Entity.ofDocument) := by
  obtain ⟨after, hq, hdocs⟩ := h.built
  have hidle := Node.idle_of_ofQuery? hq
  have hgraph := graph_eq (q := { q with combination, batchSize }) h.predicates_eq (batchSizeOf_eq hsize)
    (h.select.symm ▸ hq)
  have hrun : ∃ run, (e.run { q with combination, batchSize }).1 = .ok run ∧
      run.Deals (batchSize.getD e.batchSize) ((asked predicates root docs).map Entity.ofDocument) := by
    rw [Engine.run, hgraph]
    refine Registry.serve_of_documentsFor (P := fun answer => ∃ run : Run, answer = Except.ok run ∧
      run.Deals (batchSize.getD e.batchSize) ((asked predicates root docs).map Entity.ofDocument))
      (fun r => (Graph.ofRoot r combination (batchSize.getD e.batchSize) root).run) Graph.failureOfRun
      hdocs (fun r hr => ?_) fun r f hr => ?_
    · have hdeals := Graph.exists_run_deals hc hq h.single hr
        (by rw [h.matching_eq hc]; exact hkeys) combination (batchSize.getD e.batchSize)
      rw [h.matching_eq hc, Nat.max_eq_left hsize] at hdeals
      obtain ⟨run, hrun, hd⟩ := hdeals
      exact ⟨⟨run, hrun, hd⟩, by rw [hrun, Graph.failureOfRun, Run.failure?, hd.ending]⟩
    · rw [Graph.run_of_documentsFor hidle hr, Graph.failureOfRun]
  refine ⟨hrun, ?_⟩
  obtain ⟨run, hrun, hd⟩ := hrun
  rw [collect_fst, hrun]
  change run.collected = _
  rw [Run.collected, hd.ending, hd.rows_eq]

/-- The engine of a small store. -/
def shop : Engine := ⟨Graph.Shop.catalog Graph.Shop.store, 10⟩

/-- The orders with numbers. -/
def numbered : Query := { Query.ofResource "Orders" with filter := some "id ge 1" }

/-- The predicates of their filter. -/
def atLeastOne : List Predicate := [⟨"id", .compare .ge, "1"⟩]

/-- The two orders, dealt out one by one. -/
theorem answers_single_shop : ∃ (root : Node) (docs : List Document) (run : Run),
    shop.AsksOne numbered atLeastOne root docs ∧
      (asked atLeastOne root docs).length = 2 ∧
      (shop.run { numbered with combination := .projection, batchSize := some 1 }).1 = .ok run ∧
      run.Deals 1 ((asked atLeastOne root docs).map Entity.ofDocument) := by
  obtain ⟨root, after, hq, htest⟩ := Graph.Shop.exists_built (Graph.Shop.catalog Graph.Shop.store) "Orders"
    atLeastOne [] (fun root after => root.children.isEmpty &&
      (after.registry.documentsFor root.plan.request).toOption.any fun docs =>
        (asked atLeastOne root docs).length = 2 ∧ ∀ key ∈ root.plan.request.entity.primaryKey.toOption.join,
          KeyedApart key (asked atLeastOne root docs)) (by decide +kernel)
  obtain ⟨hleaf, htest⟩ := Bool.and_eq_true_iff.mp htest
  obtain ⟨docs, hdocs, htest⟩ := (Option.any_eq_true _ _).mp htest
  obtain ⟨hlength, hkeys⟩ := of_decide_eq_true htest
  have hasks : shop.AsksOne numbered atLeastOne root docs :=
    ⟨rfl, toOption_eq_some.mp (by decide +kernel), ⟨after, hq, toOption_eq_some.mp hdocs⟩,
      List.isEmpty_iff.mp hleaf⟩
  obtain ⟨⟨run, hrun, hdeals⟩, -⟩ := answers_single (.ofConfig _ _) hasks
    (fun key hk => hkeys key (by rw [hk]; rfl)) .projection (some 1) Nat.one_pos
  exact ⟨root, docs, run, hasks, hlength, hrun, hdeals⟩

end Engine

end PathQuery
