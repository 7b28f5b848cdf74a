import PathQuery.Proofs.Graph.Build
import PathQuery.Proofs.Graph.Calls

/-!
# Proofs/Graph/Run — runs of a graph from where it was built

A run prepares the root and fetches from it; it may also be reset.  Whatever the run, the root is idle or
active (`Reached.sound`), and what holds of runs that end holds of every drain (`drain_rule`).
-/

namespace PathQuery.Graph

open Node

/-! ## Graphs and their runs -/

/-- A graph of a built tree, over any stores. -/
inductive Built : Graph → Prop where
  | ofRoot {catalog after : Catalog} {resource : String} {predicates : List Filter.Predicate}
    {selected : List String} {root : Node} (hc : catalog.Reached)
    (h : Node.ofQuery? catalog resource predicates selected = (.ok root, after))
    (registry : Registry) (combination : Combination) (batchSize : Nat) :
    Built (ofRoot registry combination batchSize root)

/-- What a graph becomes by steps that do not fail. -/
inductive Reached (g : Graph) : Graph → Prop where
  | refl : Reached g g
  | prepareRoot {g₁ g₂ : Graph} (h : Reached g g₁) (hp : g₁.prepareRoot = (.ok (), g₂)) : Reached g g₂
  | fetch {g₁ g₂ : Graph} {o : Outcome} (h : Reached g g₁) (hf : g₁.fetch = (.ok o, g₂)) : Reached g g₂
  | reset {g₁ : Graph} (h : Reached g g₁) : Reached g g₁.reset

/-! ## What holds in all runs -/

/-- The root of a graph is idle or active, and there are enough steps for it. -/
structure Sound (g : Graph) : Prop where
  formed : g.root.Formed
  isRoot : g.root.isRoot = true
  edge : g.root.plan.edge = none
  enough : turns g.fetcher.registry g.root ≤ g.fetcher.steps
  state : g.root.Idle ∨ Active g.fetcher none g.root

variable {g g₁ g₂ : Graph} {o : Outcome}

theorem Sound.ample (h : g.Sound) : g.Ample :=
  ⟨h.state.elim (fun hi => hi.bounded _) fun ha => ha.bounded, h.enough⟩

theorem Built.idle (h : Built g) : g.root.Idle := by
  cases h with
  | ofRoot hc h => exact (rooted_of_ofQuery? hc h).fresh.idle

theorem Built.sound (h : Built g) : g.Sound := by
  have hidle := h.idle
  cases h with
  | ofRoot hc h =>
    have hr := rooted_of_ofQuery? hc h
    refine ⟨hr.fresh.formed, ?_, hr.edge, Nat.le_refl _, .inl hidle⟩
    rw [Node.isRoot]
    exact hr.parent ▸ rfl

theorem Sound.of_alike (h : g.Sound) (hf : g₁.fetcher = g.fetcher) (ha : g₁.root.Alike g.root)
    (hs : g₁.root.Idle ∨ Active g₁.fetcher none g₁.root) : g₁.Sound where
  formed := h.formed.of_alike ha.symm
  isRoot := ha.isRoot_eq.trans h.isRoot
  edge := ha.plan_eq ▸ h.edge
  enough := by rw [hf, ha.turns_eq]; exact h.enough
  state := hs

/-- Preparing opens an idle root. -/
theorem Sound.prepareRoot (h : g.Sound) (hp : g.prepareRoot = (.ok (), g₁)) :
    g.root.Idle ∧ g₁.fetcher = g.fetcher ∧ g₁.root.Alike g.root ∧
      g.fetcher.openCursor none g.root = (.ok (), g₁.root) ∧ Active g₁.fetcher none g₁.root := by
  obtain ⟨hfetcher, ho⟩ := prepareRoot_eq_iff.mp hp
  have hidle : g.root.Idle := h.state.resolve_right fun ha => by
    obtain ⟨_, _, _, hopen⟩ := ha.exists_open
    exact hopen.cursor_ne (Fetcher.cursor_eq_none_of_openCursor ho)
  obtain ⟨hal, hactive⟩ := Fetcher.active_of_openCursor h.formed hidle ho
  exact ⟨hidle, hfetcher, hal, ho, hfetcher ▸ hactive⟩

/-- Fetching goes on from an active root. -/
theorem Sound.fetch (h : g.Sound) (hf : g.fetch = (.ok o, g₁)) :
    Active g.fetcher none g.root ∧ g₁.fetcher = g.fetcher ∧ g₁.root.Alike g.root ∧
      g.fetcher.fetch g.root = (.ok o, g₁.root) ∧ o ≠ .unfinished ∧
      Fetcher.Fetched g₁.fetcher none o g₁.root := by
  obtain ⟨hfetcher, hr⟩ := fetch_eq_iff.mp hf
  have hactive : Active g.fetcher none g.root := h.state.resolve_left fun hi =>
    Fetcher.cursor_ne_none_of_fetch hr hi.cursor
  obtain ⟨hal, hfetched⟩ := Fetcher.keeps_fetch g.fetcher _ _ h.formed hactive _ _ hr
  have hfinished := h.ample.spent.finished
  rw [hr] at hfinished
  exact ⟨hactive, hfetcher, hal, hr, fun ho => hfinished (congrArg _ ho), hfetcher ▸ hfetched⟩

theorem Sound.after_fetch (h : g.Sound) (hf : g.fetch = (.ok o, g₁)) : g₁.Sound := by
  obtain ⟨-, hfet, hal, -, hu, hfetched⟩ := h.fetch hf
  refine h.of_alike hfet hal ?_
  cases o with
  | batch c => exact .inr hfetched.1
  | pending => exact .inr hfetched
  | exhausted => exact hfetched
  | unfinished => exact absurd rfl hu

/-- **Whatever the run**, the root is idle or active. -/
theorem Reached.sound (h : Reached g g₁) (hs : g.Sound) :
    g₁.Sound ∧ g₁.fetcher = g.fetcher ∧ g₁.root.Alike g.root := by
  induction h with
  | refl => exact ⟨hs, rfl, .refl _⟩
  | prepareRoot _ hp ih =>
    obtain ⟨hs₁, hf, ha⟩ := ih
    obtain ⟨-, hf', ha', -, hactive⟩ := hs₁.prepareRoot hp
    exact ⟨hs₁.of_alike hf' ha' (.inr hactive), hf'.trans hf, ha'.trans ha⟩
  | fetch _ hfetch ih =>
    obtain ⟨hs₁, hf, ha⟩ := ih
    obtain ⟨-, hf', ha', -⟩ := hs₁.fetch hfetch
    exact ⟨hs₁.after_fetch hfetch, hf'.trans hf, ha'.trans ha⟩
  | reset _ ih =>
    obtain ⟨hs₁, hf, ha⟩ := ih
    exact ⟨hs₁.of_alike rfl (alike_reset _) (.inl (idle_reset _)), hf, (alike_reset _).trans ha⟩

/-! ## Drains -/

theorem Sound.left_fetch_lt (h : g.Sound) (hf : g.fetch = (.ok o, g₁)) (ho : o ≠ .exhausted) :
    left g₁.fetcher.registry g₁.root < left g.fetcher.registry g.root := by
  rcases h.ample.ended_or_left_lt with hended | hlt
  · rw [Ended, hf] at hended
    exact absurd hended (by simp [ho])
  · rw [hf] at hlt
    exact (h.fetch hf).2.1 ▸ hlt

/-- **The rule of drains**: what holds of a run that ends at once, and of a run with one more fetch at
its front, holds of every drain. -/
theorem drain_rule {Q : Graph → Run → Prop}
    (failed : ∀ g f g₁, g.Sound → g.fetch = (.error f, g₁) → Q g ⟨[], 1, .failed f⟩)
    (exhausted : ∀ g g₁, g.Sound → g.fetch = (.ok .exhausted, g₁) → Q g ⟨[], 1, .exhausted⟩)
    (pending : ∀ g g₁ run, g.Sound → g.fetch = (.ok .pending, g₁) → Q g₁ run → Q g run.poll)
    (batch : ∀ g g₁ c run, g.Sound → g.fetch = (.ok (.batch c), g₁) → Q g₁ run → Q g (run.push c))
    (h : g.Sound) : Q g g.drain := by
  suffices hw : ∀ fetches (g : Graph), g.Sound → left g.fetcher.registry g.root < fetches →
      Q g (g.drainWithin fetches) from
    hw _ g h (Nat.lt_succ_of_le (h.ample.bounded.left_le.trans h.enough))
  intro fetches
  induction fetches with
  | zero => exact fun _ _ hlt => absurd hlt (Nat.not_lt_zero _)
  | succ fetches ih =>
    intro g h hleft
    rw [drainWithin]
    have hnext : ∀ {o g₁}, g.fetch = (.ok o, g₁) → o ≠ .exhausted →
        Q g₁ (g₁.drainWithin fetches) := fun {o g₁} hf ho => by
      have hlt := h.left_fetch_lt hf ho
      exact ih g₁ (h.after_fetch hf) (by omega)
    split
    · exact failed _ _ _ h ‹_›
    · rename_i g₁ hf
      exact absurd rfl (h.fetch hf).2.2.2.2.1
    · exact exhausted _ _ h ‹_›
    · rename_i hf
      exact pending _ _ _ h hf (hnext hf (by rintro ⟨⟩))
    · rename_i hf
      exact batch _ _ _ _ h hf (hnext hf (by rintro ⟨⟩))

/-- The rows of a run with one more batch at its front. -/
theorem rows_push {c : Collection} (hv : c.Valid) (run : Run) : (run.push c).rows = c.rows ++ run.rows := by
  rw [Run.push, Run.rows, Run.rows, Run.poll]
  split
  · rename_i hempty
    rw [Collection.isEmpty, hv.size_eq, beq_iff_eq, List.length_eq_zero_iff] at hempty
    rw [Collection.rows, hempty, List.map_nil, List.nil_append]
  · rw [List.flatMap_cons]

/-! ## A small store -/

/-- The first batch of a graph that gives one at once, with the graph before and after it. -/
def firstBatch? (g : Graph) : Option (Graph × Collection × Graph) :=
  match g.prepareRoot with
  | (.ok (), g₁) =>
    match g₁.fetch with
    | (.ok (.batch c), g₂) => some (g₁, c, g₂)
    | _ => none
  | _ => none

theorem of_firstBatch? {c : Collection} (h : g.firstBatch? = some (g₁, c, g₂)) :
    g.Reached g₁ ∧ g₁.fetch = (.ok (.batch c), g₂) := by
  rw [firstBatch?] at h
  split at h
  · split at h
    · cases h
      exact ⟨.prepareRoot .refl ‹_›, ‹_›⟩
    · obtain ⟨⟩ := h
  · obtain ⟨⟩ := h

namespace Shop

/-- An entity type with key `id` and scalar edges, each with the type at its end and its foreign key. -/
def entity (name resource : String) (edges : List (String × String × String)) : Document :=
  [("description", .object [("shortName", .string name), ("defaultResourceName", .string resource),
    ("key", .object [("propertyRef", .object [("name", .string "id")])]),
    ("dataProperties", .array [.object [("name", .string "id"), ("dataType", .string "Int64")]]),
    ("navigationProperties", .array (edges.map fun (name, type, key) => .object [("name", .string name),
      ("entityTypeName", .string type), ("isScalar", .bool true),
      ("foreignKeyNames", .array [.string key])]))])]

/-- Two orders of one product, the customer of the second being unknown. -/
def store : Store := ⟨.memory, [
  ("Entities", [entity "Order" "Orders" [("customer", "Customer", "buyer"), ("product", "Product", "item")],
    entity "Customer" "Customers" [], entity "Product" "Products" []]),
  ("Orders", [[("id", .int 1), ("buyer", .int 1), ("item", .int 5)],
    [("id", .int 2), ("buyer", .int 2), ("item", .int 5)]]),
  ("Customers", [[("id", .int 1)]]),
  ("Products", [[("id", .int 5)]])]⟩

/-- The first of these orders, of a customer in a region. -/
def regional : Store := ⟨.memory, [
  ("Entities", [entity "Order" "Orders" [("customer", "Customer", "buyer"), ("product", "Product", "item")],
    entity "Customer" "Customers" [("region", "Region", "area")], entity "Product" "Products" [],
    entity "Region" "Regions" []]),
  ("Orders", [[("id", .int 1), ("buyer", .int 1), ("item", .int 5)]]),
  ("Customers", [[("id", .int 1), ("area", .int 7)]]),
  ("Products", [[("id", .int 5)]]),
  ("Regions", [[("id", .int 7)]])]⟩

/-- Two orders with two lines each, the product of the first being unknown. -/
def lines : Store := ⟨.memory, [
  ("Entities", [
    [("description", .object [("shortName", .string "Order"), ("defaultResourceName", .string "Orders"),
      ("key", .object [("propertyRef", .object [("name", .string "id")])]),
      ("dataProperties", .array [.object [("name", .string "id"), ("dataType", .string "Int64")]]),
      ("navigationProperties", .array [
        .object [("name", .string "lines"), ("entityTypeName", .string "Line"), ("isScalar", .bool false),
          ("invForeignKeyNames", .array [.string "order"])],
        .object [("name", .string "product"), ("entityTypeName", .string "Product"), ("isScalar", .bool true),
          ("foreignKeyNames", .array [.string "item"])]])])],
    entity "Line" "Lines" [], entity "Product" "Products" []]),
  ("Orders", [[("id", .int 1), ("item", .int 5)], [("id", .int 2), ("item", .int 6)]]),
  ("Lines", [[("id", .int 11), ("order", .int 1)], [("id", .int 12), ("order", .int 1)],
    [("id", .int 21), ("order", .int 2)], [("id", .int 22), ("order", .int 2)]]),
  ("Products", [[("id", .int 6)]])]⟩

/-- The registry of a store. -/
def registry (s : Store) : Registry := ⟨⟨fun _ => none⟩, [], [("memory.metadata", s)], []⟩

/-- The catalog of a store. -/
def catalog (s : Store) : Catalog :=
  .ofConfig { Config.default with defaultContainer := some "memory.metadata" } (registry s)

/-- The predicates that lead from orders to customers and to products. -/
def predicates : List Filter.Predicate :=
  [⟨"customer/id", .compare .ge, "0"⟩, ⟨"product/id", .compare .ge, "0"⟩]

/-- A tree and the catalog after it that pass a test, if building them and testing them says so. -/
theorem exists_built (catalog : Catalog) (resource : String) (predicates : List Filter.Predicate)
    (selected : List String) (test : Node → Catalog → Bool)
    (h : (Node.ofQuery? catalog resource predicates selected).1.toOption.any
      (test · (Node.ofQuery? catalog resource predicates selected).2) = true) :
    ∃ (root : Node) (after : Catalog),
      Node.ofQuery? catalog resource predicates selected = (.ok root, after) ∧ test root after = true := by
  generalize Node.ofQuery? catalog resource predicates selected = built at h
  obtain ⟨_ | root, after⟩ := built
  · obtain ⟨⟩ := h
  · obtain ⟨_, hroot, htest⟩ := (Option.any_eq_true _ _).mp h
    cases hroot
    exact ⟨root, after, rfl, htest⟩

/-- A tree that passes a test. -/
theorem exists_root (catalog : Catalog) (resource : String) (predicates : List Filter.Predicate)
    (selected : List String) (test : Node → Bool)
    (h : (Node.ofQuery? catalog resource predicates selected).1.toOption.any test = true) :
    ∃ (root : Node) (after : Catalog),
      Node.ofQuery? catalog resource predicates selected = (.ok root, after) ∧ test root = true :=
  exists_built catalog resource predicates selected (fun root _ => test root) h

/-- The results that a fetch gives, if it gives some. -/
def given? : Except Failure Outcome → Option Collection
  | .ok (.batch c) => some c
  | _ => none

theorem eq_batch_of_given? {x : Except Failure Outcome} {c : Collection} (h : given? x = some c) :
    x = .ok (.batch c) := by
  rw [given?.eq_def] at h
  split at h
  · exact congrArg _ (congrArg _ (Option.some.inj h))
  · obtain ⟨⟩ := h

/-- A query over a store, if a test holds of its first batch and of the graph before and after it. -/
theorem exists_first (s : Store) (combination : Combination) (batchSize : Nat)
    (predicates : List Filter.Predicate) (selected : List String)
    (test : Node → Graph → Collection → Graph → Bool)
    (h : (Node.ofQuery? (catalog s) "Orders" predicates selected).1.toOption.any (fun root =>
      (ofRoot (registry s) combination batchSize root).firstBatch?.any fun found =>
        test root found.1 found.2.1 found.2.2) = true) :
    ∃ (root : Node) (after : Catalog) (g₁ g₂ : Graph) (c : Collection),
      Node.ofQuery? (catalog s) "Orders" predicates selected = (.ok root, after) ∧
      (ofRoot (registry s) combination batchSize root).Reached g₁ ∧ g₁.fetch = (.ok (.batch c), g₂) ∧
      test root g₁ c g₂ = true := by
  obtain ⟨root, after, hq, h⟩ := exists_root _ _ _ _ _ h
  obtain ⟨⟨g₁, c, g₂⟩, hfound, htest⟩ := (Option.any_eq_true _ _).mp h
  obtain ⟨hr, hf⟩ := of_firstBatch? hfound
  exact ⟨root, after, g₁, g₂, c, hq, hr, hf, htest⟩

/-- The orders with their customers and products, if a test holds of their first batch. -/
theorem exists_batch (combination : Combination) (test : Node → Collection → Graph → Bool)
    (h : (Node.ofQuery? (catalog store) "Orders" predicates []).1.toOption.any (fun root =>
      (ofRoot (registry store) combination 10 root).firstBatch?.any fun found =>
        test root found.2.1 found.2.2) = true) :
    ∃ (root : Node) (after : Catalog) (g₁ g₂ : Graph) (c : Collection),
      Node.ofQuery? (catalog store) "Orders" predicates [] = (.ok root, after) ∧
      (ofRoot (registry store) combination 10 root).Reached g₁ ∧ g₁.fetch = (.ok (.batch c), g₂) ∧
      test root c g₂ = true :=
  exists_first store combination 10 predicates [] (fun root _ c g₂ => test root c g₂) h

/-- The rows of the orders in a projection, if a test holds of a whole run. -/
theorem exists_run (test : Node → Run → Bool)
    (h : (Node.ofQuery? (catalog store) "Orders" predicates []).1.toOption.any (fun root =>
      (ofRoot (registry store) .projection 10 root).run.toOption.any (test root)) = true) :
    ∃ (root : Node) (after : Catalog) (run : Run),
      Node.ofQuery? (catalog store) "Orders" predicates [] = (.ok root, after) ∧
      (ofRoot (registry store) .projection 10 root).run = .ok run ∧ test root run = true := by
  obtain ⟨root, after, hq, h⟩ := exists_root _ _ _ _ _ h
  obtain ⟨run, hrun, htest⟩ := (Option.any_eq_true _ _).mp h
  refine ⟨root, after, run, hq, ?_, htest⟩
  generalize (ofRoot (registry store) .projection 10 root).run = ran at hrun
  obtain _ | found := ran
  · obtain ⟨⟩ := hrun
  · exact congrArg _ (Option.some.inj hrun)

end Shop

end PathQuery.Graph
