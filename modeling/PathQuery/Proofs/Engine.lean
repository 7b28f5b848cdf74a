import PathQuery.Engine
import PathQuery.Proofs.Graph.Inherit
import PathQuery.Proofs.Graph.Run

/-!
# Proofs/Engine — every query comes to an end

The graph of a query is built over any catalog and run over the stores that it asks for, which may be
acquired one after the other.  Whichever these are, the root of the graph is exhausted or fails after
finitely many fetches, and the engine has the rows of the query or the failure (`always_finishes`).
-/

namespace PathQuery

/-! ## Stores on demand -/

/-- What is served is what the action gives on some registry. -/
theorem Registry.exists_serve {α : Type} (r : Registry) (action : Registry → α)
    (failure : α → Option Failure) : ∃ r', (r.serve action failure).1 = action r' := by
  suffices hw : ∀ stores (r : Registry), ∃ r', (serveWithin action failure stores r).1 = action r' from
    hw _ r
  intro stores
  induction stores with
  | zero => exact fun r => ⟨r, rfl⟩
  | succ stores ih =>
    intro r
    rw [serveWithin]
    split
    · exact ⟨r.known, rfl⟩
    · split
      · exact ⟨r, rfl⟩
      · exact ih _

/-- The documents of a request are there once its store is known. -/
theorem Registry.documentsFor_known {r : Registry} {request : Request} {container : String} {s : Store}
    (hc : request.entity.container = some container) (hs : r.stores.get? container = some s) :
    r.known.documentsFor request = .ok (s.documents request.resource) := by
  rw [documentsFor, storeFor, hc]
  change Except.map _ (r.known.store container) = _
  rw [store, known, hs]
  rfl

/-- A store that is not known yet is asked for. -/
theorem Registry.documentsFor_unknown {r : Registry} {request : Request} {container : String}
    {docs : List Document} (h : r.documentsFor request = .ok docs)
    (hc : request.entity.container = some container) (hs : r.stores.get? container = none) :
    r.known.documentsFor request = .error (.config (.noParameters container)) := by
  obtain ⟨s, hstore, -⟩ := map_eq_ok.mp h
  rw [storeFor, hc] at hstore
  change r.store container = _ at hstore
  rw [store, hs] at hstore
  obtain ⟨made, hmade, -⟩ := map_eq_ok.mp hstore
  have hname : ∃ name, ContainerName.ofText? container = .ok name := by
    rcases hn : ContainerName.ofText? container with f | name
    · rw [create, opening?, hn] at hmade
      obtain ⟨⟩ := hmade
    · exact ⟨name, rfl⟩
  obtain ⟨name, hname⟩ := hname
  have hopening : r.known.opening? container = .error (.config (.noParameters container)) := by
    rw [opening?, hname]
    rfl
  rw [documentsFor, storeFor, hc]
  change Except.map _ (r.known.store container) = _
  rw [store, known, hs]
  change Except.map _ (Except.map _ (r.known.create container).1) = _
  rw [create, hopening]
  rfl

/-- **What a request needs is acquired**: an action that fails only where the documents of one request are
not there is served with them. -/
theorem Registry.serve_of_documentsFor {α : Type} {r : Registry} {request : Request}
    {docs : List Document} {P : α → Prop} (action : Registry → α) (failure : α → Option Failure)
    (h : r.documentsFor request = .ok docs)
    (good : ∀ r' : Registry, r'.documentsFor request = .ok docs →
      P (action r') ∧ failure (action r') = none)
    (bad : ∀ (r' : Registry) f, r'.documentsFor request = .error f → failure (action r') = some f) :
    P (r.serve action failure).1 := by
  have hknown : ∀ r' : Registry, r'.known.documentsFor request = .ok docs → ∀ stores,
      P (serveWithin action failure (stores + 1) r').1 := fun r' h' stores => by
    obtain ⟨hp, hnone⟩ := good _ h'
    rw [serveWithin]
    simp only [hnone, Option.bind_none]
    exact hp
  obtain ⟨s, hstore, rfl⟩ := map_eq_ok.mp h
  rcases hc : request.entity.container with _ | container
  · rw [storeFor, hc] at hstore
    obtain ⟨⟩ := hstore
  rw [storeFor, hc] at hstore
  rcases hs : r.stores.get? container with _ | known
  · rcases hacquire : r.acquire container with ⟨acquired, after⟩
    have hfst := acquire_fst r container
    rw [hacquire] at hfst
    obtain rfl : acquired = .ok s := hfst.trans hstore
    have hafter : after.documentsFor request = .ok (s.documents request.resource) := by
      rw [documentsFor, storeFor, hc]
      exact congrArg _ (store_of_acquire hacquire)
    rw [serve, serveWithin]
    simp only [bad _ _ (documentsFor_unknown h hc hs), Option.bind_some, Failure.wanting, hacquire]
    rcases r.parameters.length with _ | stores
    · exact (good after hafter).1
    · exact hknown after (documentsFor_known hc (stores_of_acquire hacquire)) stores
  · refine hknown r ?_ _
    rw [documentsFor_known hc hs]
    change r.store container = _ at hstore
    rw [store, hs] at hstore
    cases hstore
    rfl

/-! ## Runs of graphs -/

namespace Graph

variable {g : Graph} {run : Run}

/-- **A run ends**, once the root is prepared. -/
theorem Ample.ending_run_ne (h : g.Ample) (hr : g.run = .ok run) : run.ending ≠ .unfinished := by
  rw [Graph.run] at hr
  split at hr
  · obtain ⟨⟩ := hr
  · rename_i g₁ hp
    cases hr
    have := h.prepareRoot
    rw [hp] at this
    exact this.ending_drain_ne

end Graph

/-! ## Queries -/

namespace Engine

variable {e : Engine} {q : Query} {run : Run}

/-- The graph of a query is that of a tree that was built. -/
theorem exists_ofQuery? {g : Graph} (h : (e.graph q).1 = .ok g) :
    ∃ (predicates : List Filter.Predicate) (batchSize : Nat) (root : Node) (after : Catalog),
      Node.ofQuery? e.catalog q.entitySet predicates q.select = (.ok root, after) ∧
      g = .ofRoot after.registry q.combination batchSize root := by
  rw [graph] at h
  dsimp only at h
  split at h
  · obtain ⟨⟩ := h
  · rename_i predicates batchSize _
    obtain ⟨root, hroot, rfl⟩ := map_eq_ok.mp h
    exact ⟨predicates, batchSize, root, _, Prod.ext hroot rfl, rfl⟩

/-- A query is answered by a run of the graph of a tree that was built, over some stores. -/
theorem exists_run_ofRoot (h : (e.run q).1 = .ok run) :
    ∃ (root : Node) (registry : Registry) (batchSize : Nat), root.Idle ∧
      (Graph.ofRoot registry q.combination batchSize root).run = .ok run := by
  rw [Engine.run] at h
  split at h
  · obtain ⟨⟩ := h
  · rename_i g e' hg
    obtain ⟨predicates, batchSize, root, after, hroot, rfl⟩ :=
      exists_ofQuery? (congrArg Prod.fst hg)
    obtain ⟨registry, hr⟩ := e'.registry.exists_serve
      (fun r => ((Graph.ofRoot after.registry q.combination batchSize root).withRegistry r).run)
      Graph.failureOfRun
    exact ⟨root, registry, batchSize, Node.idle_of_ofQuery? hroot, hr.symm.trans h⟩

/-- The run of a query ends. -/
theorem ending_run_ne (h : (e.run q).1 = .ok run) : run.ending ≠ .unfinished := by
  obtain ⟨root, registry, batchSize, hidle, hr⟩ := exists_run_ofRoot h
  exact (Graph.ample_ofRoot hidle registry q.combination batchSize).ending_run_ne hr

theorem collect_fst (e : Engine) (q : Query) :
    (e.collect q).1 = (e.run q).1.bind Run.collected := by
  rw [collect]

/-- **A query is answered**: no run starts, or all its rows are there, or it failed on the way. -/
theorem answered (e : Engine) (q : Query) :
    (∃ f, (e.run q).1 = .error f ∧ (e.collect q).1 = .error f) ∨
    ∃ run, (e.run q).1 = .ok run ∧
      (run.ending = .exhausted ∧ (e.collect q).1 = .ok run.rows ∨
        ∃ f, run.ending = .failed f ∧ (e.collect q).1 = .error f) := by
  rw [collect_fst]
  rcases hr : (e.run q).1 with f | run
  · exact .inl ⟨f, rfl, rfl⟩
  · refine .inr ⟨run, rfl, ?_⟩
    rcases Ending.ended_of_ne (ending_run_ne hr) with hend | ⟨f, hend⟩
    · exact .inl ⟨hend, by simp [Except.bind, Run.collected, hend]⟩
    · exact .inr ⟨f, hend, by simp [Except.bind, Run.collected, hend]⟩

/-- **The engine always finishes.**  Over any stores and with any batch size, whatever is called on the
graph of a tree that was built, fetching terminates, and not because of a bound; no more fetches lie
ahead than the root has turns.  So every query is answered. -/
theorem always_finishes :
    (∀ (catalog : Catalog) (resource : String) (predicates : List Filter.Predicate)
        (selected : List String) (root : Node) (after : Catalog) (registry : Registry)
        (combination : Combination) (batchSize : Nat) (g : Graph),
      Node.ofQuery? catalog resource predicates selected = (.ok root, after) →
      Graph.Called (.ofRoot registry combination batchSize root) g →
      g.Terminates ∧ g.fetcher.steps = root.turns registry) ∧
    ∀ (e : Engine) (q : Query),
      (∃ f, (e.run q).1 = .error f ∧ (e.collect q).1 = .error f) ∨
      ∃ run, (e.run q).1 = .ok run ∧
        (run.ending = .exhausted ∧ (e.collect q).1 = .ok run.rows ∨
          ∃ f, run.ending = .failed f ∧ (e.collect q).1 = .error f) := by
  refine ⟨fun catalog resource predicates selected root after registry combination batchSize g hq hc => ?_,
    answered⟩
  have hroot := Graph.ample_ofRoot (Node.idle_of_ofQuery? hq) registry combination batchSize
  obtain ⟨hg, hfetcher⟩ := hc.ample hroot
  exact ⟨hg.terminates, congrArg Fetcher.steps hfetcher⟩

/-- The orders with their customers and products, in batches of no documents, which count as one. -/
theorem always_finishes_shop : ∃ (root : Node) (after : Catalog),
    Node.ofQuery? (Graph.Shop.catalog Graph.Shop.store) "Orders" Graph.Shop.predicates [] = (.ok root, after) ∧
    (Graph.ofRoot (Graph.Shop.registry Graph.Shop.store) .expand 0 root).prepareRoot.2.Terminates := by
  obtain ⟨root, after, hq, -⟩ := Graph.Shop.exists_root (Graph.Shop.catalog Graph.Shop.store) "Orders"
    Graph.Shop.predicates [] (fun _ => true) (by decide +kernel)
  exact ⟨root, after, hq, (always_finishes.1 _ _ _ _ root after _ .expand 0 _ hq (.prepareRoot .refl)).1⟩

end Engine

end PathQuery
