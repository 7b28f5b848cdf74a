import PathQuery.Metadata.Navigation
import PathQuery.Store.Registry

/-!
# Metadata/Catalog — resolving entity types and edges by name

A catalog looks metadata documents up in their store and remembers what it found: an entity type under
its own name and under its resource, and an edge under its host and its property.  A name that is
remembered is answered without the store; a name that was not found is looked up again.  The first lookup
opens the store.

Every lookup gives its result together with the catalog after it, also when it fails.
-/

namespace PathQuery

/-- Where metadata documents are, and what was resolved so far. -/
structure Catalog where
  registry : Registry
  source : MetadataSource
  /-- The containers of resources. -/
  containers : Fields String
  defaultContainer : Option String
  /-- The entity types that were found, by name. -/
  entities : Fields EntityType
  /-- The entity types that were found, by resource. -/
  resources : Fields EntityType
  /-- The edges that were resolved, by host and property. -/
  edges : List ((String × String) × Navigation)

namespace Catalog

/-- The catalog of a configuration, in which nothing is resolved yet. -/
def ofConfig (config : Config) (registry : Registry) : Catalog :=
  ⟨registry, config.metadata, config.containers, config.defaultContainer, [], [], []⟩

/-- The first metadata document whose field is a text, as an entity type with its container. -/
def find? (c : Catalog) (field name : String) : Except Failure (Option EntityType) := do
  let stub := EntityType.stub c.source.resource (some c.source.container)
  let request := { Request.ofEntity stub with
    restriction := Restriction.none.push field (.compare .eq (.string name)) }
  match ← c.registry.fetchOne request with
  | none => return none
  | some document =>
    let type ← EntityType.ofValue? (.object document)
    let container := (c.containers.get? type.resource).or c.defaultContainer
    return some { type with container }

/-- Remembers an entity type under its name and its resource. -/
def remember (c : Catalog) (type : EntityType) : Catalog :=
  { c with
    entities := c.entities.set type.name type
    resources := c.resources.set type.resource type }

/-- The catalog once its store is known. -/
def opened (c : Catalog) : Catalog :=
  { c with registry := (c.registry.acquire c.source.container).2 }

/-- Finds and remembers an entity type that is not remembered yet. -/
def fetch (c : Catalog) (field name : String) (missing : MetadataFault) :
    Except Failure EntityType × Catalog :=
  match c.find? field name with
  | .error f => (.error f, c.opened)
  | .ok none => (.error (.metadata missing), c.opened)
  | .ok (some type) => (.ok type, c.opened.remember type)

/-- The entity type of a name. -/
def entity (c : Catalog) (name : String) : Except Failure EntityType × Catalog :=
  match c.entities.get? name with
  | some type => (.ok type, c)
  | none => c.fetch "description.shortName" name (.noEntity name)

/-- The entity type of a resource. -/
def resource (c : Catalog) (name : String) : Except Failure EntityType × Catalog :=
  match c.resources.get? name with
  | some type => (.ok type, c)
  | none => c.fetch "description.defaultResourceName" name (.noResource name)

/-- The only key of a list that a navigation property declares. -/
def onlyKey (entity property list : String) : List String → Except Failure String
  | [key] => .ok key
  | [] => .error (.metadata (.undeclaredKey entity property list))
  | keys => .error (.metadata (.severalKeys entity property list keys))

/-- The keys of a scalar edge: the host's foreign key and the primary key of the related type. -/
def scalarEdge (c : Catalog) (name property : String)
    (definition : NavigationDefinition) (related : String) :
    Except Failure Navigation × Catalog :=
  match onlyKey name property "foreignKeyNames" definition.foreignKeyNames with
  | .error f => (.error f, c)
  | .ok hostKey =>
    match c.entity related with
    | (.error f, c) => (.error f, c)
    | (.ok type, c) =>
      match type.primaryKey with
      | .error f => (.error f, c)
      | .ok none => (.error (.metadata (.relatedWithoutKey name property related)), c)
      | .ok (some relatedKey) => (.ok ⟨property, true, hostKey, relatedKey, related⟩, c)

/-- The keys of a collection edge: the host's primary key and the foreign key of the related type. -/
def collectionEdge (host : EntityType) (name property : String)
    (definition : NavigationDefinition) (related : String) : Except Failure Navigation := do
  let relatedKey ← onlyKey name property "invForeignKeyNames" definition.inverseForeignKeyNames
  match ← host.primaryKey with
  | none => .error (.metadata (.hostWithoutKey name property))
  | some hostKey => return ⟨property, false, hostKey, relatedKey, related⟩

/-- Resolves an edge that is not remembered yet. -/
def resolve (c : Catalog) (name property : String) : Except Failure Navigation × Catalog :=
  match c.entity name with
  | (.error f, c) => (.error f, c)
  | (.ok host, c) =>
    match host.navigationDefinition? property with
    | none => (.error (.metadata (.noNavigation name property)), c)
    | some definition =>
      match definition.relatedEntityName with
      | none => (.error (.metadata (.noRelatedType name property)), c)
      | some related =>
        if definition.isScalar then c.scalarEdge name property definition related
        else (collectionEdge host name property definition related, c)

/-- The edge that is remembered for a host and a property. -/
def edge? (c : Catalog) (name property : String) : Option Navigation :=
  (c.edges.find? (·.1 == (name, property))).map (·.2)

/-- The edge of a property of the entity type of a name. -/
def navigation (c : Catalog) (name property : String) : Except Failure Navigation × Catalog :=
  match c.edge? name property with
  | some edge => (.ok edge, c)
  | none =>
    match c.resolve name property with
    | (.error f, c) => (.error f, c)
    | (.ok edge, c) => (.ok edge, { c with edges := ((name, property), edge) :: c.edges })

end Catalog

end PathQuery
