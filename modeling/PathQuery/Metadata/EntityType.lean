import PathQuery.Failure
import PathQuery.Value.Record

/-!
# Metadata/EntityType — what is declared about one type of entity

An entity type has a name, the resource its documents are stored in, at most one primary key, declared
data types of its fields, and definitions of its navigation properties.  It is read from a metadata
document, `ofValue?`; what its declarations leave open is refused only when it is asked for.
-/

namespace PathQuery

/-! ## Data types -/

/-- How literals of a field are read. -/
inductive DataType where
  | integer | float | boolean | text | dateTime
deriving DecidableEq, Repr

/-- The data type of a declared name. -/
def DataType.ofName? : String → Option DataType
  | "Int16" | "Int32" | "Int64" | "Byte" => some integer
  | "Single" | "Double" | "Decimal" => some float
  | "Boolean" => some boolean
  | "String" | "Guid" => some text
  | "DateTime" | "DateTimeOffset" => some dateTime
  | _ => none

/-! ## Declarations -/

/-- A navigation property as it is declared. -/
structure NavigationDefinition where
  name : String
  entityTypeName : Option String
  isScalar : Bool
  foreignKeyNames : List String
  inverseForeignKeyNames : List String
deriving DecidableEq, Repr

/-- The text before the first `:#`. -/
def beforeNamespace : List Char → List Char
  | ':' :: '#' :: _ => []
  | c :: rest => c :: beforeNamespace rest
  | [] => []

/-- The name of the related entity type, without its namespace. -/
def NavigationDefinition.relatedEntityName (d : NavigationDefinition) : Option String :=
  d.entityTypeName.map fun name => String.ofList (beforeNamespace name.toList)

/-- The declared primary key. -/
inductive KeyDeclaration where
  | none
  | single (name : String)
  | compound (names : List String)
deriving DecidableEq, Repr

/-- What is declared about a type of entity. -/
structure EntityType where
  name : String
  /-- The resource in which its documents are stored. -/
  resource : String
  /-- The container of the resource, if one is configured. -/
  container : Option String
  key : KeyDeclaration
  /-- The declared fields with their types, or nothing if no fields are declared at all. -/
  dataTypes : Option (Fields (Option String))
  navigation : List NavigationDefinition
deriving DecidableEq, Repr

namespace EntityType

/-- An entity type of which only the place of its documents is known. -/
def stub (resource : String) (container : Option String) : EntityType :=
  ⟨resource, resource, container, .none, none, []⟩

/-- The primary key, if one is declared; a compound key is refused. -/
def primaryKey (t : EntityType) : Except Failure (Option String) :=
  match t.key with
  | .none => .ok none
  | .single name => .ok (some name)
  | .compound names => .error (.metadata (.compoundKey t.name names))

/-- The declared name of the data type of a field. -/
def dataTypeName (t : EntityType) (field : String) : Except Failure String :=
  match t.dataTypes with
  | none => .error (.metadata (.noProperties t.name field))
  | some types =>
    match types.get? field with
    | some (some name) => .ok name
    | some none => .error (.metadata (.untypedProperty t.name field))
    | none => .error (.metadata (.noProperty t.name field))

/-- The first definition of a navigation property. -/
def navigationDefinition? (t : EntityType) (property : String) : Option NavigationDefinition :=
  t.navigation.find? (·.name == property)

/-! ## Reading a metadata document -/

open Value Value.Reading

/-- Reads a reference to a property. -/
def readReference : Value → Decoded String :=
  readRecord "PropertyRef" (required "name" readText)

/-- Reads one reference, or else a list of them. -/
def readReferences (v : Value) : Decoded KeyDeclaration :=
  match readReference v with
  | .ok name => .ok (.single name)
  | .error _ =>
    match readList readReference v with
    | .ok [] => .ok .none
    | .ok [name] => .ok (.single name)
    | .ok names => .ok (.compound names)
    | .error _ => refuse (.noVariant "PropertyRefs")

/-- Reads a declared key. -/
def readKey : Value → Decoded KeyDeclaration :=
  readRecord "RawKey" (required "propertyRef" readReferences)

/-- Reads a declared field. -/
def readProperty : Value → Decoded (String × Option String) :=
  readRecord "DataProperty"
    (Prod.mk <$> required "name" readText <*> optional "dataType" readText)

/-- Reads a declared navigation property. -/
def readNavigation : Value → Decoded NavigationDefinition :=
  readRecord "NavigationDefinition" (NavigationDefinition.mk
    <$> required "name" readText
    <*> optional "entityTypeName" readText
    <*> orElse "isScalar" false readFlag
    <*> orElse "foreignKeyNames" [] (readList readText)
    <*> orElse "invForeignKeyNames" [] (readList readText))

/-- An entity type from the parts of its description. -/
def ofParts (name resource : String) (key : Option KeyDeclaration)
    (properties : Option (List (String × Option String)))
    (navigation : List NavigationDefinition) : EntityType :=
  ⟨name, resource, none, key.getD .none, properties.map Fields.ofPairs, navigation⟩

/-- Reads the description of an entity type. -/
def readDescription : Value → Decoded EntityType :=
  readRecord "EntityDescription" (ofParts
    <$> required "shortName" readText
    <*> required "defaultResourceName" readText
    <*> optional "key" readKey
    <*> optional "dataProperties" (readList readProperty)
    <*> orElse "navigationProperties" [] (readList readNavigation))

/-- Reads a metadata document. -/
def readDocument : Value → Decoded EntityType :=
  readRecord "MetadataDocument" (required "description" readDescription)

/-- The entity type that a metadata document describes. -/
def ofValue? (document : Value) : Except Failure EntityType :=
  (readDocument document).mapError fun f => .metadata (.malformed f.refusal.describe)

end EntityType

end PathQuery
