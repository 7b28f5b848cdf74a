import PathQuery.Graph.Build
import PathQuery.Proofs.Except
import PathQuery.Proofs.Fields

/-!
# Proofs/Metadata/Catalog — what a lookup gives, and what it remembers

A lookup that is not answered from memory asks the store, and remembers the type that it finds there under
its own name and under its resource.  Resolving an edge looks up its host, and at a scalar edge the type
at its end as well.  Edges are remembered under the names of their properties.
-/

namespace PathQuery

/-- The related type that resolving a property asks for: that of a scalar edge with one foreign key. -/
def EntityType.scalarTarget? (host : EntityType) (property : String) : Option String :=
  (host.navigationDefinition? property).bind fun definition =>
    if definition.isScalar ∧ definition.foreignKeyNames.length = 1 then definition.relatedEntityName
    else none

namespace Catalog

/-- A catalog that came about by lookups, over stores that may change between them. -/
inductive Reached : Catalog → Prop where
  | ofConfig (config : Config) (registry : Registry) : Reached (.ofConfig config registry)
  | entity {c : Catalog} (name : String) (h : Reached c) : Reached (c.entity name).2
  | resource {c : Catalog} (name : String) (h : Reached c) : Reached (c.resource name).2
  | navigation {c : Catalog} (name property : String) (h : Reached c) :
    Reached (c.navigation name property).2
  | withRegistry {c : Catalog} (registry : Registry) (h : Reached c) : Reached { c with registry }

/-! ## The two names of a type -/

/-- Which of its names a type is looked up and remembered by. -/
inductive Key where
  | name
  | resource

namespace Key

/-- The name of a type. -/
def of : Key → EntityType → String
  | name, type => type.name
  | resource, type => type.resource

/-- The field of a metadata document that is compared with the name. -/
def field : Key → String
  | name => "description.shortName"
  | resource => "description.defaultResourceName"

/-- The types that are remembered. -/
def memory : Key → Catalog → Fields EntityType
  | name, c => c.entities
  | resource, c => c.resources

/-- What is wrong if there is no type of a name. -/
def missing : Key → String → MetadataFault
  | name => .noEntity
  | resource => .noResource

/-- What is remembered once some types were found, one after the other. -/
def learn (key : Key) (found : List EntityType) (memory : Fields EntityType) : Fields EntityType :=
  found.foldl (fun memory type => memory.set (key.of type) type) memory

/-- The type found last wins. -/
theorem get?_learn (key : Key) (found : List EntityType) (memory : Fields EntityType) (name : String) :
    (key.learn found memory).get? name =
      (found.reverse.find? (key.of · == name)).or (memory.get? name) := by
  induction found generalizing memory with
  | nil => rfl
  | cons type rest ih =>
    have hset : (memory.set (key.of type) type).get? name =
        (List.find? (key.of · == name) [type]).or (memory.get? name) := by
      rw [Fields.get?_set, List.find?_singleton]
      by_cases h : key.of type = name
      · simp [h]
      · simp [h, Ne.symm h]
    rw [learn, List.foldl_cons, ← learn, ih, hset, List.reverse_cons, List.find?_append, Option.or_assoc]

end Key

/-! ## Lookups of types -/

/-- The type of a name. -/
def lookup (c : Catalog) : Key → String → Except Failure EntityType × Catalog
  | .name, name => c.entity name
  | .resource, name => c.resource name

theorem lookup_eq (c : Catalog) (key : Key) (name : String) : c.lookup key name =
    match (key.memory c).get? name with
    | some type => (.ok type, c)
    | none => c.fetch key.field name (key.missing name) := by
  cases key
  · exact Catalog.entity.eq_def c name
  · exact Catalog.resource.eq_def c name

/-- The type that the store has for a name, if it has one. -/
def stored? (c : Catalog) (key : Key) (name : String) : Option EntityType :=
  (c.find? key.field name).toOption.join

/-- The types that a lookup finds in the store, which it does not ask for what is remembered. -/
def foundBy (c : Catalog) (key : Key) (name : String) : List EntityType :=
  if (key.memory c).has name then [] else (c.stored? key name).toList

variable {c : Catalog} {key : Key} {name property : String} {type : EntityType} {edge : Navigation}

theorem lookup_of_memory (h : (key.memory c).get? name = some type) :
    c.lookup key name = (.ok type, c) := by
  rw [lookup_eq, h]

theorem foundBy_of_memory (h : (key.memory c).get? name = some type) : c.foundBy key name = [] := by
  rw [foundBy, Fields.has, h]
  rfl

theorem foundBy_of_none (h : (key.memory c).get? name = none) :
    c.foundBy key name = (c.stored? key name).toList := by
  rw [foundBy, Fields.has, h]
  rfl

/-- A lookup is answered from memory or else from the store. -/
theorem lookup_eq_ok_iff : (c.lookup key name).1 = .ok type ↔
    ((key.memory c).get? name).or (c.stored? key name) = some type := by
  rw [lookup_eq, stored?]
  rcases (key.memory c).get? name with _ | known
  · dsimp only
    rw [fetch]
    rcases c.find? key.field name with f | _ | found
    · exact ⟨by rintro ⟨⟩, by rintro ⟨⟩⟩
    · exact ⟨by rintro ⟨⟩, by rintro ⟨⟩⟩
    · exact ⟨fun h => congrArg some (Except.ok.inj h), fun h => congrArg Except.ok (Option.some.inj h)⟩
  · exact ⟨fun h => congrArg some (Except.ok.inj h), fun h => congrArg Except.ok (Option.some.inj h)⟩

/-- **A lookup remembers what it finds**, under both names. -/
theorem memory_lookup (c : Catalog) (key other : Key) (name : String) :
    other.memory (c.lookup key name).2 = other.learn (c.foundBy key name) (other.memory c) := by
  rcases hk : (key.memory c).get? name with _ | known
  · rw [foundBy_of_none hk, lookup_eq, hk, stored?]
    dsimp only
    rw [fetch]
    rcases c.find? key.field name with f | _ | found <;> cases other <;> rfl
  · rw [foundBy_of_memory hk, lookup_of_memory hk]
    rfl

@[simp] theorem edges_lookup (c : Catalog) (key : Key) (name : String) :
    (c.lookup key name).2.edges = c.edges := by
  rw [lookup_eq]
  rcases (key.memory c).get? name with _ | known
  · dsimp only
    rw [fetch]
    rcases c.find? key.field name with f | _ | found <;> rfl
  · rfl

/-! ## Lookups of edges -/

/-- The related type that resolving a property of the type of a name asks for. -/
def target? (c : Catalog) (name property : String) : Option String :=
  (c.lookup .name name).1.toOption.bind (·.scalarTarget? property)

theorem onlyKey_eq_ok_iff {property list related : String} {keys : List String} :
    onlyKey name property list keys = .ok related ↔ keys = [related] := by
  match keys with
  | [key] => exact ⟨fun h => congrArg (fun k => [k]) (Except.ok.inj h), fun h => by cases h; rfl⟩
  | [] => exact ⟨by rintro ⟨⟩, by rintro ⟨⟩⟩
  | _ :: _ :: _ => exact ⟨by rintro ⟨⟩, by rintro ⟨⟩⟩

/-- A scalar edge looks its end up if it has one foreign key. -/
theorem scalarEdge_snd (c : Catalog) (name property : String) (definition : NavigationDefinition)
    (related : String) : (c.scalarEdge name property definition related).2 =
      if definition.foreignKeyNames.length = 1 then (c.lookup .name related).2 else c := by
  rw [scalarEdge]
  split
  · rename_i f h
    rw [if_neg fun hl => ?_]
    obtain ⟨key, hkey⟩ := List.length_eq_one_iff.mp hl
    rw [onlyKey_eq_ok_iff.mpr hkey] at h
    obtain ⟨⟩ := h
  · rename_i hostKey h
    rw [if_pos (by rw [onlyKey_eq_ok_iff.mp h]; rfl), lookup]
    rcases c.entity related with ⟨f | type, c'⟩
    · rfl
    · dsimp only
      split <;> rfl

/-- **Resolving** looks up the host, and then the end of a scalar edge. -/
theorem resolve_snd (c : Catalog) (name property : String) : (c.resolve name property).2 =
    (c.target? name property).elim (c.lookup .name name).2 fun related =>
      ((c.lookup .name name).2.lookup .name related).2 := by
  rw [resolve, target?, lookup]
  rcases c.entity name with ⟨f | host, c'⟩
  · rfl
  · dsimp only [Except.toOption, Option.bind_some]
    rw [EntityType.scalarTarget?]
    rcases host.navigationDefinition? property with _ | definition
    · rfl
    · dsimp only [Option.bind_some]
      rcases hr : definition.relatedEntityName with _ | related
      · rw [ite_self]
        rfl
      · dsimp only
        by_cases hs : definition.isScalar = true
        · rw [if_pos hs, scalarEdge_snd]
          by_cases hl : definition.foreignKeyNames.length = 1
          · rw [if_pos hl, if_pos ⟨hs, hl⟩]
            rfl
          · rw [if_neg hl, if_neg fun h => hl h.2]
            rfl
        · rw [if_neg hs, if_neg fun h => hs h.1]
          rfl

@[simp] theorem edges_resolve (c : Catalog) (name property : String) :
    (c.resolve name property).2.edges = c.edges := by
  rw [resolve_snd]
  cases c.target? name property <;> simp

/-- The types that are found in the store when an edge is looked up. -/
def foundAlong (c : Catalog) (name property : String) : List EntityType :=
  if (c.edge? name property).isSome then []
  else
    c.foundBy .name name ++
      (c.target? name property).elim [] ((c.lookup .name name).2.foundBy .name)

theorem navigation_of_edge? (h : c.edge? name property = some edge) :
    c.navigation name property = (.ok edge, c) := by
  rw [navigation, h]

/-- Looking an edge up changes only the memory of edges further than resolving it does. -/
theorem navigation_of_none (h : c.edge? name property = none) :
    (c.navigation name property).1 = (c.resolve name property).1 ∧
      (c.navigation name property).2 = { (c.resolve name property).2 with
        edges := ((c.resolve name property).1.toOption.map (((name, property), ·))).toList ++ c.edges } := by
  have hedges := edges_resolve c name property
  rw [navigation, h]
  rcases hr : c.resolve name property with ⟨f | edge, c'⟩
  all_goals
    have hc : c'.edges = c.edges := by rwa [hr] at hedges
    rw [← hc]
    exact ⟨rfl, rfl⟩

/-- **A lookup of an edge remembers** the types that it finds. -/
theorem memory_navigation (c : Catalog) (key : Key) (name property : String) :
    key.memory (c.navigation name property).2 =
      key.learn (c.foundAlong name property) (key.memory c) := by
  rw [foundAlong]
  rcases he : c.edge? name property with _ | edge
  · have hm : ∀ (c : Catalog) edges, key.memory { c with edges } = key.memory c := fun _ _ => by
      cases key <;> rfl
    rw [(navigation_of_none he).2, hm, resolve_snd]
    cases c.target? name property with
    | none => simp [memory_lookup]
    | some related => simp [memory_lookup, Key.learn, List.foldl_append]
  · rw [navigation_of_edge? he]
    rfl

/-- Edges are remembered under the names of their properties. -/
def Named (c : Catalog) : Prop := ∀ entry ∈ c.edges, entry.2.name = entry.1.2

theorem name_scalarEdge {definition : NavigationDefinition} {related : String}
    (h : (c.scalarEdge name property definition related).1 = .ok edge) : edge.name = property := by
  rw [scalarEdge] at h
  split at h
  · obtain ⟨⟩ := h
  · split at h
    · obtain ⟨⟩ := h
    · split at h
      · obtain ⟨⟩ := h
      · obtain ⟨⟩ := h
      · cases h; rfl

theorem name_collectionEdge {host : EntityType} {related : String} {definition : NavigationDefinition}
    (h : collectionEdge host name property definition related = .ok edge) : edge.name = property := by
  obtain ⟨relatedKey, -, h⟩ := bind_eq_ok.mp h
  obtain ⟨key, -, h⟩ := bind_eq_ok.mp h
  cases key with
  | none => obtain ⟨⟩ := h
  | some hostKey => cases h; rfl

theorem name_resolve (h : (c.resolve name property).1 = .ok edge) : edge.name = property := by
  rw [resolve] at h
  split at h
  · obtain ⟨⟩ := h
  · split at h
    · obtain ⟨⟩ := h
    · split at h
      · obtain ⟨⟩ := h
      · split at h
        · exact name_scalarEdge h
        · exact name_collectionEdge h

theorem Named.name_of_edge? (h : c.Named) (he : c.edge? name property = some edge) :
    edge.name = property := by
  obtain ⟨entry, hf, rfl⟩ := Option.map_eq_some_iff.mp he
  have hkey := List.find?_some hf
  rw [h entry (List.mem_of_find?_eq_some hf), eq_of_beq hkey]

/-- An edge is found under its name, and remembered under it. -/
theorem Named.navigation (h : c.Named) (name property : String) :
    (c.navigation name property).2.Named ∧
      ∀ edge, (c.navigation name property).1 = .ok edge → edge.name = property := by
  rcases he : c.edge? name property with _ | known
  · obtain ⟨hfst, hsnd⟩ := navigation_of_none he
    rw [hfst, hsnd]
    refine ⟨fun entry hm => ?_, fun edge hr => name_resolve hr⟩
    rcases List.mem_append.mp hm with hm | hm
    · obtain ⟨edge, hr, rfl⟩ := Option.map_eq_some_iff.mp (Option.mem_toList.mp hm)
      rcases hres : (c.resolve name property).1 with f | edge'
      · rw [hres] at hr
        obtain ⟨⟩ := hr
      · rw [hres] at hr
        cases hr
        exact name_resolve hres
    · exact h entry hm
  · rw [navigation_of_edge? he]
    exact ⟨h, fun edge hr => by cases hr; exact h.name_of_edge? he⟩

theorem edges_entity (c : Catalog) (name : String) : (c.entity name).2.edges = c.edges :=
  edges_lookup c .name name

theorem edges_resource (c : Catalog) (name : String) : (c.resource name).2.edges = c.edges :=
  edges_lookup c .resource name

theorem Reached.named (h : c.Reached) : c.Named := by
  induction h with
  | ofConfig => rintro _ ⟨⟩
  | entity name _ ih => exact fun entry hm => ih entry (edges_entity _ name ▸ hm)
  | resource name _ ih => exact fun entry hm => ih entry (edges_resource _ name ▸ hm)
  | navigation name property _ ih => exact (ih.navigation name property).1
  | withRegistry registry _ ih => exact ih

end Catalog

end PathQuery
