import PathQuery.Proofs.Metadata.Catalog

/-!
# Proofs/Metadata/Answers — how long the answers of a catalog stay the same

A catalog is asked for types and edges while its stores change.  An edge that was resolved is the answer
from then on.  A type is the answer to its name until a lookup finds another type of that name in the
store: a lookup by one name also writes what is remembered under the other (`answers_stay_iff`).
-/

namespace PathQuery.Catalog

/-! ## Histories -/

/-- A step in the life of a catalog. -/
inductive Step where
  /-- A type is looked up. -/
  | type (key : Key) (name : String)
  /-- An edge is looked up. -/
  | edge (name property : String)
  /-- The stores change. -/
  | stores (registry : Registry)

/-- The catalog after a step. -/
def after (c : Catalog) : Step → Catalog
  | .type key name => (c.lookup key name).2
  | .edge name property => (c.navigation name property).2
  | .stores registry => { c with registry }

/-- The catalog after some steps. -/
def afterAll (c : Catalog) (history : List Step) : Catalog := history.foldl after c

/-- The types that a step finds in the store, in the order in which they are found. -/
def found (c : Catalog) : Step → List EntityType
  | .type key name => c.foundBy key name
  | .edge name property => c.foundAlong name property
  | .stores _ => []

/-- The types that some steps find in the store. -/
def foundAll (c : Catalog) : List Step → List EntityType
  | [] => []
  | step :: rest => c.found step ++ foundAll (c.after step) rest

variable {c : Catalog} {key : Key} {name property : String} {type : EntityType} {edge : Navigation}

/-- A step remembers the types that it finds. -/
theorem memory_after (c : Catalog) (step : Step) (key : Key) :
    key.memory (c.after step) = key.learn (c.found step) (key.memory c) := by
  cases step with
  | type other name => exact memory_lookup c other key name
  | edge name property => exact memory_navigation c key name property
  | stores registry => cases key <;> rfl

/-- **What is remembered** after some steps is what they found last, or else what was remembered before. -/
theorem memory_afterAll (c : Catalog) (history : List Step) (key : Key) :
    key.memory (c.afterAll history) = key.learn (c.foundAll history) (key.memory c) := by
  induction history generalizing c with
  | nil => rfl
  | cons step rest ih =>
    rw [afterAll, List.foldl_cons, ← afterAll, ih, memory_after, foundAll, Key.learn, Key.learn, Key.learn,
      List.foldl_append]

/-! ## Types -/

/-- Types are remembered under their names. -/
def Consistent (c : Catalog) : Prop :=
  ∀ (key : Key) (name : String) (type : EntityType),
    (key.memory c).get? name = some type → key.of type = name

theorem Consistent.of_memory {c' : Catalog} (h : c.Consistent) {types : List EntityType}
    (hm : ∀ key : Key, key.memory c' = key.learn types (key.memory c)) : c'.Consistent := by
  intro key name type ht
  rw [hm, Key.get?_learn, Option.or_eq_some_iff] at ht
  rcases ht with hf | ⟨-, ht⟩
  · have hname := List.find?_some hf
    exact eq_of_beq hname
  · exact h key name type ht

theorem Reached.consistent (h : c.Reached) : c.Consistent := by
  induction h with
  | ofConfig => exact fun key name type h => by cases key <;> obtain ⟨⟩ := h
  | entity name _ ih => exact ih.of_memory (memory_lookup _ .name · name)
  | resource name _ ih => exact ih.of_memory (memory_lookup _ .resource · name)
  | navigation name property _ ih => exact ih.of_memory (memory_navigation _ · name property)
  | withRegistry registry _ ih => exact ih.of_memory (memory_after _ (.stores registry))

/-- The type of a name that some steps find last. -/
def lastFound? (c : Catalog) (history : List Step) (key : Key) (name : String) : Option EntityType :=
  (c.foundAll history).reverse.find? (key.of · == name)

/-- A type that was the answer to a name is the answer after some steps as well: it is the type of that
name that they find last, or they find none and it is remembered, or found once more. -/
def Keeps (c : Catalog) (history : List Step) (key : Key) (name : String) (type : EntityType) : Prop :=
  match c.lastFound? history key name with
  | some last => last = type
  | none => key.of type = name ∨ (c.afterAll history).stored? key name = some type

/-- What is remembered under a name after it was looked up. -/
theorem get?_memory_lookup (hc : c.Consistent) (h : (c.lookup key name).1 = .ok type) :
    (key.memory (c.lookup key name).2).get? name = if key.of type = name then some type else none := by
  rw [lookup_eq_ok_iff] at h
  rw [memory_lookup]
  rcases hk : (key.memory c).get? name with _ | known
  · rw [hk, Option.none_or] at h
    rw [foundBy_of_none hk, h, Key.get?_learn, hk, Option.or_none, Option.toList_some,
      List.reverse_singleton, List.find?_singleton]
    simp
  · rw [hk] at h
    cases h
    rw [foundBy_of_memory hk, if_pos (hc key name _ hk)]
    exact hk

/-- **The answer to a name stays** until another type of that name is found. -/
theorem lookup_stays_iff (hc : c.Consistent) (history : List Step) (key : Key)
    (h : (c.lookup key name).1 = .ok type) :
    (((c.lookup key name).2.afterAll history).lookup key name).1 = .ok type ↔
      (c.lookup key name).2.Keeps history key name type := by
  rw [lookup_eq_ok_iff, memory_afterAll, Key.get?_learn, ← lastFound?, get?_memory_lookup hc h, Keeps]
  rcases (c.lookup key name).2.lastFound? history key name with _ | last
  · by_cases hn : key.of type = name
    · simp [hn]
    · simp [hn]
  · simp

/-! ## Edges -/

/-- An edge that was looked up is remembered. -/
theorem edge?_navigation (h : (c.navigation name property).1 = .ok edge) :
    (c.navigation name property).2.edge? name property = some edge := by
  rcases he : c.edge? name property with _ | known
  · obtain ⟨hfst, hsnd⟩ := navigation_of_none he
    rw [hfst] at h
    rw [hsnd, h, edge?]
    simp [Except.toOption]
  · rw [navigation_of_edge? he] at h ⊢
    cases h
    exact he

/-- A remembered edge stays what it is. -/
theorem edge?_after (h : c.edge? name property = some edge) (step : Step) :
    (c.after step).edge? name property = some edge := by
  have hkept : ∀ c' : Catalog, c'.edges = c.edges → c'.edge? name property = some edge := fun c' he => by
    rw [edge?, he]
    exact h
  cases step with
  | type key other => exact hkept _ (edges_lookup c key other)
  | stores registry => exact hkept _ rfl
  | edge host other =>
    rcases he : c.edge? host other with _ | known
    · -- an edge is added for a property that had none, so for another one
      have hne : ((host, other) == (name, property)) = false := by
        rw [beq_eq_false_iff_ne]
        rintro hpair
        obtain ⟨rfl, rfl⟩ := Prod.mk.inj hpair
        rw [he] at h
        obtain ⟨⟩ := h
      rw [after, (navigation_of_none he).2, edge?]
      rcases (c.resolve host other).1 with f | edge'
      · exact h
      · simp only [Except.toOption, Option.map_some, Option.toList_some, List.singleton_append,
          List.find?_cons, hne]
        exact h
    · rw [after, navigation_of_edge? he]
      exact h

theorem edge?_afterAll (h : c.edge? name property = some edge) (history : List Step) :
    (c.afterAll history).edge? name property = some edge := by
  induction history generalizing c with
  | nil => exact h
  | cons step rest ih => exact ih (edge?_after h step)

/-! ## All answers -/

/-- **How long answers stay.**  Whatever is looked up and however the stores change after a lookup that
succeeded, an edge is the answer again.  A type is the answer again exactly if no other type of that name
was found last in between, and if none was, it bears the name that it was looked up by or the store has
it still. -/
theorem answers_stay_iff (hc : c.Reached) (history : List Step) :
    (∀ name type, (c.entity name).1 = .ok type →
      ((((c.entity name).2.afterAll history).entity name).1 = .ok type ↔
        (c.entity name).2.Keeps history .name name type)) ∧
    (∀ name type, (c.resource name).1 = .ok type →
      ((((c.resource name).2.afterAll history).resource name).1 = .ok type ↔
        (c.resource name).2.Keeps history .resource name type)) ∧
    ∀ name property edge, (c.navigation name property).1 = .ok edge →
      (((c.navigation name property).2.afterAll history).navigation name property).1 = .ok edge := by
  refine ⟨fun name type h => ?_, fun name type h => ?_, fun name property edge h => ?_⟩
  · exact lookup_stays_iff hc.consistent history .name h
  · exact lookup_stays_iff hc.consistent history .resource h
  · rw [navigation_of_edge? (edge?_afterAll (edge?_navigation h) history)]

/-- A metadata document that names a type and its resource. -/
def described (name resource : String) : Document :=
  [("description", .object [("shortName", .string name), ("defaultResourceName", .string resource)])]

/-- The catalog of some metadata documents. -/
def ofDocuments (documents : List Document) : Catalog :=
  .ofConfig Config.default ⟨⟨fun _ => none⟩, [], [("memory.metadata", ⟨.memory, [("Entities", documents)]⟩)], []⟩

/-- Orders are still found after they were looked up again and all documents were taken away. -/
theorem answers_stay_orders : ∃ type,
    ((ofDocuments [described "Order" "Orders"]).entity "Order").1 = .ok type ∧
    ((((ofDocuments [described "Order" "Orders"]).entity "Order").2.afterAll
      [.type .resource "Orders", .stores (ofDocuments []).registry]).entity "Order").1 = .ok type := by
  refine ⟨⟨"Order", "Orders", none, .none, none, []⟩, by decide +kernel, ?_⟩
  have hc : (ofDocuments [described "Order" "Orders"]).Reached := .ofConfig _ _
  refine ((answers_stay_iff hc _).1 _ _ (by decide +kernel)).mpr ?_
  have hnone : ((ofDocuments [described "Order" "Orders"]).entity "Order").2.lastFound?
      [.type .resource "Orders", .stores (ofDocuments []).registry] .name "Order" = none := by
    decide +kernel
  rw [Keeps, hnone]
  exact .inl rfl

/-- **An answer that does not stay**: two types have one resource, and a lookup of the second by its name
makes it the answer for the resource, for which the first was the answer. -/
theorem exists_answer_replaced : ∃ first second : EntityType, first ≠ second ∧
    ((ofDocuments [described "Order" "Orders", described "OrderSummary" "Orders"]).resource "Orders").1 =
      .ok first ∧
    ((((ofDocuments [described "Order" "Orders", described "OrderSummary" "Orders"]).resource "Orders").2.afterAll
      [.type .name "OrderSummary"]).resource "Orders").1 = .ok second := by
  refine ⟨⟨"Order", "Orders", none, .none, none, []⟩, ⟨"OrderSummary", "Orders", none, .none, none, []⟩, ?_⟩
  decide +kernel

end PathQuery.Catalog
