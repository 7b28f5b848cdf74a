import PathQuery.Config
import PathQuery.Store.Database
import PathQuery.Store.Store
import PathQuery.Value.Place

/-!
# Store/Registry — the store of each container

A container has one store: the one that was registered for it, or else the one that its parameters
describe.  A memory store with a path holds the documents of that file; a database is opened in a
directory, and starts without documents.  A request goes to the container of its entity type.

To acquire a store is to keep it for its container from then on.  Opening a database changes files, also
if it fails.
-/

namespace PathQuery

/-- Stores by container, and the parameters of containers that have no store yet. -/
structure Registry where
  files : Files
  parameters : Fields DriverParameters
  stores : Fields Store
  /-- The directories of the open databases, by container. -/
  held : Fields Place

/-- How a store comes about. -/
inductive StoreOpening where
  | empty (kind : StoreKind)
  /-- A memory store of the documents in a file. -/
  | file (path : String)
  /-- A database in a directory. -/
  | database (path : String)
deriving DecidableEq, Repr

namespace Registry

/-- The registry of a configuration, with nothing registered. -/
def ofConfig (config : Config) (files : Files) : Registry := ⟨files, config.drivers, [], []⟩

/-- Registers the store of a container, in place of any other; a database that was open for it is
closed. -/
def register (r : Registry) (container : String) (s : Store) : Registry :=
  let (closed, held) := r.held.partition (·.1 == container)
  { r with
    files := (closed.map (·.2)).foldl Database.written r.files
    stores := r.stores.set container s
    held }

/-- Why a text is no value: it ends before one begins, or none begins there. -/
def unreadable (text : String) : String :=
  let cs := text.toList
  let gaps := cs.takeWhile Value.isGap
  match cs.drop gaps.length with
  | [] => "EOF while parsing a value" ++ Value.endOf gaps
  | c :: _ => "expected value" ++ Value.endOf (gaps ++ [c])

/-- The memory store in the text of a file. -/
def load (r : Registry) (path : String) : Except Failure Store :=
  match r.files.read path with
  | .error detail => .error (.file detail)
  | .ok text =>
    match Value.read? text with
    | none => .error (.shape (unreadable text))
    | some v => Store.ofValue? v

/-- How the store of a container comes about by its parameters. -/
def opening? (r : Registry) (container : String) : Except Failure StoreOpening := do
  let name ← ContainerName.ofText? container
  match r.parameters.get? container with
  | none => .error (.config (.noParameters container))
  | some parameters =>
    match name.driver with
    | "memory" => return (parameters.path.map .file).getD (.empty .memory)
    | "sled" =>
      if parameters.temporary then return .empty .database
      else
        match parameters.path with
        | some path => return .database path
        | none => .error (.config (.noDatabase container))
    | driver => .error (.config (.unknownDriver driver container))

/-- The store that a container's parameters describe, which is new, with the directory that it holds if
it is a database in one; and the files after it is opened. -/
def create (r : Registry) (container : String) :
    Except Failure (Store × Option Place) × Files :=
  match r.opening? container with
  | .error f => (.error f, r.files)
  | .ok (.empty kind) => (.ok (.empty kind, none), r.files)
  | .ok (.file path) => ((r.load path).map (·, none), r.files)
  | .ok (.database path) =>
    let (directory, files) := (Database.openAt (r.held.map (·.2)) path).run r.files
    ((directory.mapError .database).map (.empty .database, some ·), files)

/-- The store of a container. -/
def store (r : Registry) (container : String) : Except Failure Store :=
  match r.stores.get? container with
  | some s => .ok s
  | none => (r.create container).1.map (·.1)

/-- The store of a container, and the registry once it is known. -/
def acquire (r : Registry) (container : String) : Except Failure Store × Registry :=
  match r.stores.get? container with
  | some s => (.ok s, r)
  | none =>
    match r.create container with
    | (.error f, files) => (.error f, { r with files })
    | (.ok (s, directory), files) =>
      (.ok s, { r with
        files
        stores := r.stores.set container s
        held := r.held ++ directory.toList.map (container, ·) })

/-- The store that a request goes to. -/
def storeFor (r : Registry) (request : Request) : Except Failure Store :=
  match request.entity.container with
  | some container => r.store container
  | none => .error (.config (.noContainer request.resource))

/-- The store that a request goes to, and the registry once it is known. -/
def acquireFor (r : Registry) (request : Request) : Except Failure Store × Registry :=
  match request.entity.container with
  | some container => r.acquire container
  | none => (.error (.config (.noContainer request.resource)), r)

/-- The documents of the resource that a request names. -/
def documentsFor (r : Registry) (request : Request) : Except Failure (List Document) :=
  (r.storeFor request).map (·.documents request.resource)

/-- The first document that a request asks for. -/
def fetchOne (r : Registry) (request : Request) : Except Failure (Option Document) := do
  (← r.storeFor request).fetchOne request

/-- A cursor over the documents that a request asks for. -/
def fetch (r : Registry) (request : Request) : Except Failure Cursor := do
  (← r.storeFor request).fetch request

/-- A cursor over the documents that a request asks for, read in batches. -/
def fetchBatches (r : Registry) (request : Request) (batchSize : Nat) :
    Except Failure BatchCursor :=
  (r.fetch request).map (.ofCursor · batchSize)

/-- A registered store is the store of its container. -/
theorem store_register (r : Registry) (container : String) (s : Store) :
    (r.register container s).store container = .ok s := by
  simp [store, register]

/-- A registered store is acquired at no cost. -/
theorem acquire_register (r : Registry) (container : String) (s : Store) :
    (r.register container s).acquire container = (.ok s, r.register container s) := by
  simp [acquire, register]

/-- To acquire a store is to find it. -/
theorem acquire_fst (r : Registry) (container : String) :
    (r.acquire container).1 = r.store container := by
  unfold acquire store
  split
  · rfl
  · split <;> (rename_i h; rw [h]; rfl)

/-- A store that was acquired is known. -/
theorem stores_of_acquire {r after : Registry} {container : String} {s : Store}
    (h : r.acquire container = (.ok s, after)) : after.stores.get? container = some s := by
  unfold acquire at h
  split at h
  · cases h
    assumption
  · split at h
    · exact nomatch h
    · cases h
      exact Fields.get?_set_self ..

/-- A store that was acquired is the store of its container. -/
theorem store_of_acquire {r after : Registry} {container : String} {s : Store}
    (h : r.acquire container = (.ok s, after)) : after.store container = .ok s := by
  rw [store, stores_of_acquire h]

end Registry

end PathQuery
