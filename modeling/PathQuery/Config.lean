import PathQuery.Failure
import PathQuery.Files
import PathQuery.Names
import PathQuery.Value.Place
import PathQuery.Value.Record

/-!
# Config — where documents live and how many are pulled at a time

A configuration names the container of the metadata documents, the container of each resource, the
parameters of each container's driver, and the batch size.  A container is named `<driver>.<name>`.  A
configuration is read from a text; relative paths in it count from the directory of the text's file.
-/

namespace PathQuery

/-- The fields in alphabetical order of their names, the last value of a repeated name. -/
def Fields.sorted (fs : Fields α) : Fields α :=
  (Names.ofList fs.names).filterMap fun name => ((Fields.ofPairs fs).get? name).map (name, ·)

/-! ## Containers -/

/-- The name of a container: its driver and a name of its own. -/
structure ContainerName where
  driver : String
  name : String
deriving DecidableEq, Repr

/-- The container name of a text: what stands before and after its first point. -/
def ContainerName.ofText? (container : String) : Except Failure ContainerName :=
  let cs := container.toList
  let driver := cs.takeWhile (· != '.')
  match cs.dropWhile (· != '.') with
  | '.' :: c :: name =>
    if driver.isEmpty then .error (.config (.badContainer container))
    else .ok ⟨String.ofList driver, String.ofList (c :: name)⟩
  | _ => .error (.config (.badContainer container))

/-! ## Parameters -/

/-- The place of the metadata documents. -/
structure MetadataSource where
  container : String
  resource : String
deriving DecidableEq, Repr

/-- What a driver needs to open a container. -/
structure DriverParameters where
  /-- The data file, or the directory of a database. -/
  path : Option String
  /-- Whether a database is thrown away after use. -/
  temporary : Bool
deriving DecidableEq, Repr

/-- A configuration. -/
structure Config where
  metadata : MetadataSource
  /-- The containers of resources, in alphabetical order of the resources. -/
  containers : Fields String
  defaultContainer : Option String
  /-- The parameters of containers, in alphabetical order of the containers. -/
  drivers : Fields DriverParameters
  batchSize : Nat
deriving Repr

namespace Config

/-- The configuration of an empty text. -/
def default : Config := ⟨⟨"memory.metadata", "Entities"⟩, [], none, [], 100⟩

/-- The container of a resource, if one is configured. -/
def containerOf (c : Config) (resource : String) : Option String :=
  (c.containers.get? resource).or c.defaultContainer

/-- Every container that is named, the metadata's first. -/
def containerNames (c : Config) : List String :=
  c.metadata.container :: (c.containers.map (·.2) ++ c.defaultContainer.toList ++ c.drivers.names)

/-- The first name of a list that is no container name is refused. -/
def checkContainers : List String → Except Failure Unit
  | [] => .ok ()
  | name :: rest =>
    match ContainerName.ofText? name with
    | .ok _ => checkContainers rest
    | .error f => .error f

/-- The refusal of a configuration that no engine can run with. -/
def validate (c : Config) : Except Failure Unit :=
  if c.batchSize = 0 then .error (.config .zeroBatchSize) else checkContainers c.containerNames

/-! ## Building -/

/-- Names the container of a resource. -/
def withContainer (c : Config) (resource container : String) : Config :=
  { c with containers := (c.containers.set resource container).sorted }

/-- Gives the parameters of a container. -/
def withDriver (c : Config) (container : String) (parameters : DriverParameters) : Config :=
  { c with drivers := (c.drivers.set container parameters).sorted }

/-! ## Reading and writing -/

open Value Value.Reading

/-- The fields of the place of the metadata documents. -/
def metadataReading : Reading MetadataSource :=
  MetadataSource.mk <$> required "container" readText <*> required "resource" readText

/-- Reads a path. -/
def readPath (v : Value) : Decoded String :=
  match v with
  | .string path => .ok path
  | v => refuse (.wrongType v "path string")

/-- The fields of the parameters of a container. -/
def parametersReading : Reading DriverParameters :=
  DriverParameters.mk <$> optional "path" readPath <*> orElse "temporary" false readFlag

/-- A configuration from its parts. -/
def ofParts (metadata : MetadataSource) (containers : Fields String)
    (defaultContainer : Option String) (drivers : Fields DriverParameters) (batchSize : Nat) :
    Config :=
  ⟨metadata, containers.sorted, defaultContainer, drivers.sorted, batchSize⟩

/-- The fields of a configuration. -/
def reading : Reading Config := ofParts
  <$> orElse "metadata" default.metadata (readRecord "MetadataSource" metadataReading)
  <*> orElse "containers" [] (readMap readText)
  <*> optional "default_container" readText
  <*> orElse "drivers" [] (readMap (readRecord "DriverParams" parametersReading))
  <*> orElse "batch_size" default.batchSize readCount

/-- Reads a configuration. -/
def decode : Value → Decoded Config := readRecord "EngineConfig" reading

/-- The parts of a configuration that are used: what its records declare. -/
def shape : Shape :=
  .record reading.declared.names fun
    | "metadata" => .record metadataReading.declared.names fun _ => .whole
    | "containers" => .map .whole
    | "drivers" => .map (.record parametersReading.declared.names fun _ => .whole)
    | _ => .whole

/-- The configuration that a value describes. -/
def ofValue? (v : Value) : Except Failure Config :=
  (decode v).mapError fun f => .shape f.refusal.describe

/-- The configuration with its paths counted from a directory. -/
def resolved (c : Config) (directory : String) : Config :=
  { c with drivers := c.drivers.mapValues fun p =>
      { p with path := p.path.map (Files.resolve directory) } }

/-- The configuration in the text of a file of some directory, if it is valid. -/
def ofText? (directory text : String) : Except Failure Config := do
  match readAs? shape text with
  | none => .error (.shape "the text is no value")
  | some v =>
    let config ← (decode v).mapError fun f => .shape (f.describeIn text)
    config.validate
    return config.resolved directory

/-- The directory of a path. -/
def directoryOf (path : String) : String :=
  match (path.splitOn "/").dropLast with
  | [""] => "/"
  | parts => "/".intercalate parts

/-- The configuration in a file, if it is valid. -/
def ofFile? (files : Files) (path : String) : Except Failure Config := do
  ofText? (directoryOf path) (← (files.read path).mapError .file)

/-- The written form of a configuration. -/
def toValue (c : Config) : Value := .object [
  ("metadata", .object [
    ("container", .string c.metadata.container), ("resource", .string c.metadata.resource)]),
  ("containers", .object (c.containers.mapValues .string)),
  ("default_container", .ofText? c.defaultContainer),
  ("drivers", .object (c.drivers.mapValues fun p => .object [
    ("path", .ofText? p.path), ("temporary", .bool p.temporary)])),
  ("batch_size", .nat c.batchSize)]

end Config

end PathQuery
