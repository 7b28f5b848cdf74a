import PathQuery.Filter.Parse
import PathQuery.Text.Shown

/-!
# Failure — what can go wrong, by cause

Every failure is a cause with the names it concerns; the words of a cause are one function of it.  The
kinds of failure follow the parts of the library: the filter text, the metadata, a predicate on a
declared field, a collection, the protocol of a fetch node, a store, the configuration, a text that
does not have the shape of a record, a file that cannot be read, and a database that cannot be opened.
-/

namespace PathQuery

/-! ## Metadata -/

/-- Metadata that is missing or does not fit. -/
inductive MetadataFault where
  | noEntity (entity : String)
  | noResource (resource : String)
  | noNavigation (entity property : String)
  | noRelatedType (entity property : String)
  | relatedWithoutKey (entity property related : String)
  | hostWithoutKey (entity property : String)
  /-- A navigation property declares no key in the named list. -/
  | undeclaredKey (entity property list : String)
  /-- A navigation property declares several keys in the named list. -/
  | severalKeys (entity property list : String) (keys : List String)
  | compoundKey (entity : String) (keys : List String)
  | malformed (detail : String)
  | noProperties (entity field : String)
  | untypedProperty (entity field : String)
  | noProperty (entity field : String)
deriving DecidableEq, Repr

/-- The words of a metadata fault. -/
def MetadataFault.describe : MetadataFault → String
  | noEntity entity => s!"could not locate metadata for entity [{entity}]"
  | noResource resource =>
    s!"could not locate metadata with default resource name [{resource}]"
  | noNavigation entity property =>
    s!"navigation property [{property}] does not exist on entity [{entity}]"
  | noRelatedType entity property =>
    s!"navigation property [{entity}.{property}] has no entityTypeName"
  | relatedWithoutKey entity property related =>
    s!"navigation property [{entity}.{property}]: related entity [{related}] has no primary key"
  | hostWithoutKey entity property =>
    s!"navigation property [{entity}.{property}]: entity [{entity}] has no primary key"
  | undeclaredKey entity property list =>
    s!"illegal navigation property [{entity}.{property}]: {list} must be declared"
  | severalKeys entity property list keys =>
    let names := ", ".intercalate keys
    s!"illegal navigation property [{entity}.{property}]: compound {list} [{names}] are not supported"
  | compoundKey entity keys =>
    let names := ", ".intercalate keys
    s!"entity [{entity}] declares a compound key [{names}], which is not supported"
  | malformed detail => s!"malformed metadata document: {detail}"
  | noProperties entity field =>
    s!"could not find property [{field}] for entity [{entity}]: no data properties declared"
  | untypedProperty entity field =>
    s!"could not find data type for property [{field}] on entity [{entity}]"
  | noProperty entity field => s!"could not find property [{field}] for entity [{entity}]"

/-! ## Predicates -/

/-- A predicate that is no condition on a stored field. -/
inductive PredicateFault where
  /-- A condition cannot stand beside those that a field has. -/
  | conflict (field operator : String) (existing : List String)
  | unknownType (type field entity : String)
  | needsText (operator field type : String)
  | badLiteral (expected raw field : String)
deriving DecidableEq, Repr

/-- The words of a predicate fault. -/
def PredicateFault.describe : PredicateFault → String
  | conflict field operator existing =>
    let names := ", ".intercalate existing
    s!"conflicting conditions on field [{field}]: {operator} cannot be combined with {names}"
  | unknownType type field entity =>
    s!"unknown data type [{type}] for field [{field}] on entity [{entity}]"
  | needsText operator field type => s!"{operator} requires a string field, [{field}] is {type}"
  | badLiteral expected raw field => s!"invalid {expected} literal [{raw}] for field [{field}]"

/-! ## Collections -/

/-- A use of a collection that its keys and indexes do not allow. -/
inductive CollectionFault where
  /-- A key or index was declared while the collection held entities. -/
  | declaredLate (action name : String) (held : Nat)
  | missingIndexField (field : String)
  | compositeIndexValue (field value : String)
  | undefinedIndex (field : String)
  | noOwner
  | noNavigation (path : String)
deriving DecidableEq, Repr

/-- The words of a collection fault. -/
def CollectionFault.describe : CollectionFault → String
  | declaredLate action name held =>
    s!"cannot {action} [{name}]: collection already holds {held} entities"
  | missingIndexField field => s!"cannot find index [{field}] in entity"
  | compositeIndexValue field value => s!"index [{field}] has a non-scalar value: {value}"
  | undefinedIndex field => s!"undefined index [{field}]"
  | noOwner => "result collection has no owning node"
  | noNavigation path => s!"node [{path}] has no navigation property"

/-! ## Fetch nodes -/

/-- A step that the state of a fetch node does not allow. -/
inductive StateFault where
  | alreadyExists (path resource : String)
  | alreadyPrepared (resource : String)
  | notPrepared (resource : String)
  | childWithoutNavigation (path : String)
  | missingResults (resource : String) (child position : Nat)
deriving DecidableEq, Repr

/-- The words of a state fault. -/
def StateFault.describe : StateFault → String
  | alreadyExists path resource =>
    s!"cannot create node at path [{path}] for resource [{resource}]: already exists"
  | alreadyPrepared resource =>
    s!"{resource} node error: prepare called with an active batch cursor"
  | notPrepared resource => s!"{resource} node error: fetch called with no cursor"
  | childWithoutNavigation path => s!"child node [{path}] has no navigation property"
  | missingResults resource child position =>
    s!"{resource} node error: no results for child {child} while preparing child {position}"

/-! ## Stores -/

/-- Data that a store cannot hold, or a document that it cannot give. -/
inductive StoreFault where
  | notAStore
  | notAnImport
  | notAnArray (resource : String)
  | notADocument (resource : String)
  /-- A fault of a source of documents in words of its own. -/
  | stated (text : String)
deriving DecidableEq, Repr

/-- The words of a store fault. -/
def StoreFault.describe : StoreFault → String
  | notAStore => "memory store must be a JSON object of resource arrays"
  | notAnImport => "import data must be a JSON object of resource arrays"
  | notAnArray resource => s!"resource [{resource}] must be an array of documents"
  | notADocument resource => s!"documents in [{resource}] must be JSON objects"
  | stated text => text

/-! ## Databases -/

/-- Why a database cannot be opened. -/
inductive DatabaseFault where
  /-- Its files cannot be got at. -/
  | inaccessible (detail : String)
  /-- Another database has its data file, which is told by its path. -/
  | locked (path : String)
  /-- Its settings cannot be understood. -/
  | corrupted
deriving DecidableEq, Repr

/-- The words of a database fault. -/
def DatabaseFault.describe : DatabaseFault → String
  | inaccessible detail => s!"IO error: {detail}"
  | locked path =>
    "IO error: could not acquire lock on " ++ Text.shown path ++
      ": Os \x7b code: 11, kind: WouldBlock, message: \"Resource temporarily unavailable\" \x7d"
  | corrupted => "Read corrupted data at file offset None backtrace ()"

/-! ## Configuration -/

/-- A configuration that names something impossible. -/
inductive ConfigFault where
  | zeroBatchSize
  | zeroQueryBatchSize
  | badContainer (container : String)
  | unknownMode (mode : String)
  | noParameters (container : String)
  | noDatabase (container : String)
  | unknownDriver (driver container : String)
  | noContainer (resource : String)
deriving DecidableEq, Repr

/-- The words of a configuration fault. -/
def ConfigFault.describe : ConfigFault → String
  | zeroBatchSize => "batch_size must be at least 1"
  | zeroQueryBatchSize => "batch size must be at least 1"
  | badContainer container => s!"container name [{container}] must look like <driver>.<name>"
  | unknownMode mode => s!"unknown combine mode [{mode}], expected expand or projection"
  | noParameters container => s!"no driver parameters for container [{container}]"
  | noDatabase container => s!"sled container [{container}] needs a path or temporary = true"
  | unknownDriver driver container => s!"unknown driver [{driver}] for container [{container}]"
  | noContainer resource => s!"no container configured for resource [{resource}]"

/-! ## All of them -/

/-- Why a query, or a step of it, has no answer. -/
inductive Failure where
  | filter (error : Filter.FilterError)
  | metadata (fault : MetadataFault)
  | predicate (fault : PredicateFault)
  | collection (fault : CollectionFault)
  | state (fault : StateFault)
  | store (fault : StoreFault)
  | config (fault : ConfigFault)
  /-- A text does not have the shape of the record it should hold. -/
  | shape (detail : String)
  /-- A file cannot be read. -/
  | file (detail : String)
  /-- A database cannot be opened. -/
  | database (fault : DatabaseFault)
deriving DecidableEq, Repr

/-- The message of a failure: its kind and the words of its cause. -/
def Failure.message : Failure → String
  | filter e => e.message
  | metadata f => s!"metadata error: {f.describe}"
  | predicate f => s!"invalid predicate: {f.describe}"
  | collection f => s!"collection invariant violated: {f.describe}"
  | state f => s!"invalid node state: {f.describe}"
  | store f => s!"storage error: {f.describe}"
  | config f => s!"configuration error: {f.describe}"
  | shape detail => s!"serialization error: {detail}"
  | file detail => s!"io error: {detail}"
  | database f => s!"sled error: {f.describe}"

end PathQuery
