import PathQuery.Proofs.Metadata.Catalog
import PathQuery.Proofs.Store.Cursor

/-!
# Proofs/Metadata/Keys — edges have names for the keys that they join by

Where no metadata document declares an empty name for a key, every edge that a catalog gives has names for
the keys at both its ends, and lookups keep it so (`NamesKeys.navigation`).  A lookup may open the store of
the metadata, but it finds no documents there that were not there before.
-/

namespace PathQuery

/-- No key that an entity type declares has an empty name. -/
structure EntityType.NamesKeys (type : EntityType) : Prop where
  primary : type.primaryKey ≠ .ok (some "")
  foreign : ∀ definition ∈ type.navigation,
    "" ∉ definition.foreignKeyNames ∧ "" ∉ definition.inverseForeignKeyNames

instance (type : EntityType) : Decidable type.NamesKeys :=
  decidable_of_iff (type.key ≠ .single "" ∧ ∀ definition ∈ type.navigation,
      "" ∉ definition.foreignKeyNames ∧ "" ∉ definition.inverseForeignKeyNames) <| by
    have hprimary : type.key = .single "" ↔ type.primaryKey = .ok (some "") := by
      rw [EntityType.primaryKey]
      split <;> simp_all
    exact ⟨fun h => ⟨fun he => h.1 (hprimary.mpr he), h.2⟩, fun h => ⟨fun he => h.primary (hprimary.mp he), h.foreign⟩⟩

/-- An edge with names for the keys at both its ends. -/
def Navigation.NamesKeys (edge : Navigation) : Prop := edge.hostKey ≠ "" ∧ edge.relatedKey ≠ ""

/-! ## Stores that are opened -/

namespace Registry

variable {r : Registry} {container : String} {s : Store}

/-- A store that is there once opening it failed was there before, or it is new and empty. -/
theorem store_of_create {f : Failure} {files : Files} (hs : r.stores.get? container = none)
    (hc : r.create container = (.error f, files)) (h : store { r with files } container = .ok s) :
    r.store container = .ok s ∨ ∀ resource, s.documents resource = [] := by
  have hsame : files = r.files → r.store container = .ok s := fun he => by
    subst he
    exact h
  rw [create] at hc
  rw [store, hs] at h
  obtain ⟨made, hmade, rfl⟩ := map_eq_ok.mp h
  have hopening : opening? { r with files } container = r.opening? container := rfl
  rw [create, hopening] at hmade
  generalize r.opening? container = opening at hc hmade
  obtain _ | _ | _ | _ := opening
  · exact .inl (hsame (Prod.mk.inj hc).2.symm)
  · obtain ⟨⟩ := hc
  · exact .inl (hsame (Prod.mk.inj hc).2.symm)
  · obtain ⟨place, -, rfl⟩ := map_eq_ok.mp hmade
    exact .inr fun _ => rfl

/-- A store that is there once it was acquired, or failed to be, was there before, or it is empty. -/
theorem store_acquire (h : (r.acquire container).2.store container = .ok s) :
    r.store container = .ok s ∨ ∀ resource, s.documents resource = [] := by
  rcases hacquire : r.acquire container with ⟨_ | s', after⟩
  · rw [hacquire] at h
    rw [acquire] at hacquire
    split at hacquire
    · obtain ⟨⟩ := hacquire
    · split at hacquire
      · cases hacquire
        exact store_of_create ‹_› ‹_› h
      · obtain ⟨⟩ := hacquire
  · rw [hacquire, store_of_acquire hacquire] at h
    have hfst := acquire_fst r container
    rw [hacquire] at hfst
    exact .inl (hfst.symm.trans h)

end Registry

namespace Catalog

variable {c : Catalog} {key : Key} {name property : String} {type : EntityType} {edge : Navigation}
  {field : String}

/-! ## Metadata documents -/

/-- The documents in which entity types are looked for. -/
def documents (c : Catalog) : Except Failure (List Document) :=
  (c.registry.store c.source.container).map (·.documents c.source.resource)

/-- Opening the store finds no documents that were not there. -/
theorem mem_documents_opened {docs : List Document} {doc : Document} (h : c.opened.documents = .ok docs)
    (hd : doc ∈ docs) : ∃ docs, c.documents = .ok docs ∧ doc ∈ docs := by
  obtain ⟨s, hs, rfl⟩ := map_eq_ok.mp h
  rcases Registry.store_acquire hs with hstore | hempty
  · exact ⟨_, map_eq_ok.mpr ⟨s, hstore, rfl⟩, hd⟩
  · rw [hempty] at hd
    exact absurd hd List.not_mem_nil

/-- A type that is found is described by a document, apart from its container. -/
theorem exists_document (h : c.find? field name = .ok (some type)) : ∃ docs, c.documents = .ok docs ∧
    ∃ doc ∈ docs, ∃ described, EntityType.ofValue? (.object doc) = .ok described ∧
      type = { described with container := type.container } := by
  obtain ⟨found, hfound, h⟩ := bind_eq_ok.mp h
  obtain ⟨s, hs, hfound⟩ := bind_eq_ok.mp hfound
  rw [s.fetchOne_eq] at hfound
  obtain _ | doc := found
  · obtain ⟨⟩ := h
  · obtain ⟨described, hdescribed, h⟩ := bind_eq_ok.mp h
    cases h
    exact ⟨s.documents c.source.resource, map_eq_ok.mpr ⟨s, hs, rfl⟩, doc,
      (List.mem_filter.mp (List.mem_of_head? (Except.ok.inj hfound))).1, described, hdescribed, rfl⟩

/-! ## Keys of edges -/

/-- No metadata document declares an empty name for a key, and neither do the types and edges that are
remembered. -/
structure NamesKeys (c : Catalog) : Prop where
  documents : ∀ docs, c.documents = .ok docs → ∀ doc ∈ docs, ∀ type,
    EntityType.ofValue? (.object doc) = .ok type → type.NamesKeys
  types : ∀ (key : Key) (name : String) (type : EntityType),
    (key.memory c).get? name = some type → type.NamesKeys
  edges : ∀ entry ∈ c.edges, entry.2.NamesKeys

/-- A catalog that was not asked yet remembers nothing. -/
theorem namesKeys_ofConfig {config : Config} {registry : Registry}
    (h : (ofConfig config registry).documents.toOption.all (·.all fun doc =>
      (EntityType.ofValue? (.object doc)).toOption.all (decide ·.NamesKeys)) = true) :
    (ofConfig config registry).NamesKeys where
  documents docs hdocs doc hd type htype := by
    rw [hdocs] at h
    have hdoc := List.all_eq_true.mp h doc hd
    rw [htype] at hdoc
    exact decide_eq_true_eq.mp hdoc
  types key _ _ ht := by
    cases key with
    | name => obtain ⟨⟩ := ht
    | resource => obtain ⟨⟩ := ht
  edges := List.forall_mem_nil _

theorem NamesKeys.opened (h : c.NamesKeys) : c.opened.NamesKeys where
  documents docs hdocs doc hd := by
    obtain ⟨docs', hdocs', hd'⟩ := mem_documents_opened hdocs hd
    exact h.documents docs' hdocs' doc hd'
  types key := by
    cases key with
    | name => exact h.types .name
    | resource => exact h.types .resource
  edges := h.edges

theorem NamesKeys.of_find? (h : c.NamesKeys) (hf : c.find? field name = .ok (some type)) :
    type.NamesKeys := by
  obtain ⟨docs, hdocs, doc, hd, described, hdescribed, heq⟩ := exists_document hf
  obtain ⟨hprimary, hforeign⟩ := h.documents docs hdocs doc hd described hdescribed
  rw [heq]
  exact ⟨hprimary, hforeign⟩

/-- A lookup gives types that name their keys, and keeps it so. -/
theorem NamesKeys.lookup (h : c.NamesKeys) (key : Key) (name : String) :
    (c.lookup key name).2.NamesKeys ∧
      ∀ type, (c.lookup key name).1 = .ok type → type.NamesKeys := by
  rw [lookup_eq]
  split
  · exact ⟨h, fun type ht => by cases ht; exact h.types _ _ _ ‹_›⟩
  · rw [fetch]
    split
    · exact ⟨h.opened, by rintro _ ⟨⟩⟩
    · exact ⟨h.opened, by rintro _ ⟨⟩⟩
    · rename_i found hfound
      have hnames := h.of_find? hfound
      refine ⟨⟨h.opened.documents, fun other name' type ht => ?_, h.edges⟩, fun _ ht => by cases ht; exact hnames⟩
      have hset : other.memory (c.opened.remember found) =
          (other.memory c).set (other.of found) found := by cases other <;> rfl
      rw [hset, Fields.get?_set] at ht
      split at ht
      · cases ht
        exact hnames
      · exact h.types _ _ _ ht

theorem ne_of_onlyKey {list key : String} {keys : List String} (hk : "" ∉ keys)
    (h : onlyKey name property list keys = .ok key) : key ≠ "" := by
  rintro rfl
  rw [onlyKey_eq_ok_iff.mp h] at hk
  exact hk (.head _)

theorem NamesKeys.scalarEdge (h : c.NamesKeys) {definition : NavigationDefinition}
    (hd : "" ∉ definition.foreignKeyNames) (name property related : String) :
    (c.scalarEdge name property definition related).2.NamesKeys ∧
      ∀ edge, (c.scalarEdge name property definition related).1 = .ok edge → edge.NamesKeys := by
  obtain ⟨hkept, hend⟩ := h.lookup .name related
  rw [Catalog.lookup] at hkept hend
  rw [Catalog.scalarEdge]
  split
  · exact ⟨h, by rintro _ ⟨⟩⟩
  · rename_i hostKey hkey
    generalize c.entity related = found at hkept hend ⊢
    obtain ⟨_ | type, c'⟩ := found
    · exact ⟨hkept, by rintro _ ⟨⟩⟩
    · dsimp only
      split
      · exact ⟨hkept, by rintro _ ⟨⟩⟩
      · exact ⟨hkept, by rintro _ ⟨⟩⟩
      · rename_i relatedKey hprimary
        refine ⟨hkept, fun edge he => ?_⟩
        cases he
        exact ⟨ne_of_onlyKey hd hkey, fun hempty => (hend type rfl).primary (hempty ▸ hprimary)⟩

theorem namesKeys_collectionEdge {host : EntityType} (hh : host.primaryKey ≠ .ok (some ""))
    {definition : NavigationDefinition} (hd : "" ∉ definition.inverseForeignKeyNames) {related : String}
    (h : collectionEdge host name property definition related = .ok edge) : edge.NamesKeys := by
  obtain ⟨relatedKey, hrelated, h⟩ := bind_eq_ok.mp h
  obtain ⟨key, hkey, h⟩ := bind_eq_ok.mp h
  obtain _ | hostKey := key
  · obtain ⟨⟩ := h
  · cases h
    exact ⟨fun hempty => hh (hempty ▸ hkey), ne_of_onlyKey hd hrelated⟩

theorem NamesKeys.resolve (h : c.NamesKeys) (name property : String) :
    (c.resolve name property).2.NamesKeys ∧
      ∀ edge, (c.resolve name property).1 = .ok edge → edge.NamesKeys := by
  obtain ⟨hkept, hhost⟩ := h.lookup .name name
  rw [Catalog.lookup] at hkept hhost
  rw [Catalog.resolve]
  generalize c.entity name = found at hkept hhost ⊢
  obtain ⟨_ | host, c'⟩ := found
  · exact ⟨hkept, by rintro _ ⟨⟩⟩
  · dsimp only
    split
    · exact ⟨hkept, by rintro _ ⟨⟩⟩
    · rename_i definition hdefinition
      obtain ⟨hprimary, hforeign⟩ := hhost host rfl
      obtain ⟨hscalar, hinverse⟩ := hforeign definition (List.mem_of_find?_eq_some hdefinition)
      split
      · exact ⟨hkept, by rintro _ ⟨⟩⟩
      · split
        · exact hkept.scalarEdge hscalar _ _ _
        · exact ⟨hkept, fun _ he => namesKeys_collectionEdge hprimary hinverse he⟩

/-- **Every edge has names for its keys**, and lookups keep it so. -/
theorem NamesKeys.navigation (h : c.NamesKeys) (name property : String) :
    (c.navigation name property).2.NamesKeys ∧
      ∀ edge, (c.navigation name property).1 = .ok edge → edge.NamesKeys := by
  rcases he : c.edge? name property with _ | known
  · obtain ⟨hfst, hsnd⟩ := navigation_of_none he
    obtain ⟨hkept, hgiven⟩ := h.resolve name property
    rw [hfst, hsnd]
    refine ⟨⟨hkept.documents, fun key => ?_, fun entry hm => ?_⟩, hgiven⟩
    · cases key with
      | name => exact hkept.types .name
      | resource => exact hkept.types .resource
    · rcases List.mem_append.mp hm with hm | hm
      · obtain ⟨edge, hr, rfl⟩ := Option.map_eq_some_iff.mp (Option.mem_toList.mp hm)
        exact hgiven edge (toOption_eq_some.mp hr)
      · exact h.edges entry hm
  · rw [navigation_of_edge? he]
    refine ⟨h, fun edge hr => ?_⟩
    cases hr
    obtain ⟨entry, hf, rfl⟩ := Option.map_eq_some_iff.mp he
    exact h.edges entry (List.mem_of_find?_eq_some hf)

end Catalog

end PathQuery
