import PathQuery.Store.Batch
import PathQuery.Store.Request
import PathQuery.Value.Reader

/-!
# Store/Store — documents by resource

A store keeps the documents of each resource in the order in which they were added.  A memory store is
read as a whole from a value; a database takes documents in on top of those it has, and keeps them as
texts.  A request is answered by a cursor over the documents of its resource.
-/

namespace PathQuery

/-- The kind of a store. -/
inductive StoreKind where
  | memory | database
deriving DecidableEq, Repr

/-- The name of a kind of store in containers. -/
def StoreKind.name : StoreKind → String
  | memory => "memory"
  | database => "sled"

/-- A document as a kind of store gives it back: a database reads it again from its text. -/
def StoreKind.kept (kind : StoreKind) (doc : Document) : Document :=
  match kind with
  | memory => doc
  | database => ((Value.read? (Value.object doc).print).bind Value.object?).getD doc

/-- A memory store gives documents back as they are. -/
@[simp] theorem StoreKind.kept_memory (doc : Document) : memory.kept doc = doc := rfl

/-- The documents of some resources. -/
structure Store where
  kind : StoreKind
  resources : Fields (List Document)
deriving Repr

namespace Store

/-- A store without documents. -/
def empty (kind : StoreKind) : Store := ⟨kind, []⟩

/-- The documents of a resource. -/
def documents (s : Store) (resource : String) : List Document :=
  (s.resources.get? resource).getD []

/-- Adds a document to a resource; a value that is no object is refused. -/
def insert (s : Store) (resource : String) (v : Value) : Except Failure Store :=
  match v with
  | .object doc =>
    let docs := s.documents resource ++ [s.kind.kept doc]
    .ok { s with resources := s.resources.set resource docs }
  | _ => .error (.store (.notADocument resource))

/-- Adds documents to a resource up to the first that is refused; gives how many were added. -/
def insertAll (s : Store) (resource : String) : List Value → Except Failure Nat × Store
  | [] => (.ok 0, s)
  | v :: rest =>
    match s.insert resource v with
    | .error f => (.error f, s)
    | .ok s =>
      let (count, s) := insertAll s resource rest
      (count.map (· + 1), s)

/-- Adds the documents of several resources up to the first value that is refused. -/
def insertFields (s : Store) : List (String × Value) → Except Failure Nat × Store
  | [] => (.ok 0, s)
  | (resource, .array docs) :: rest =>
    match s.insertAll resource docs with
    | (.error f, s) => (.error f, s)
    | (.ok n, s) =>
      let (count, s) := insertFields s rest
      (count.map (· + n), s)
  | (resource, _) :: _ => (.error (.store (.notAnArray resource)), s)

/-- Adds the documents of an object from resources to lists of documents. -/
def importFrom (s : Store) (v : Value) : Except Failure Nat × Store :=
  match v with
  | .object resources => s.insertFields resources
  | _ => (.error (.store .notAnImport), s)

/-- The memory store that a value describes. -/
def ofValue? (v : Value) : Except Failure Store :=
  match v with
  | .object resources =>
    match (empty .memory).insertFields resources with
    | (.ok _, s) => .ok s
    | (.error f, _) => .error f
  | _ => .error (.store .notAStore)

/-- A cursor over the documents that a request asks for. -/
def fetch (s : Store) (r : Request) : Except Failure Cursor :=
  Cursor.start (Cursor.sound (s.documents r.resource)) r.restriction

/-- The first document that a request asks for. -/
def fetchOne (s : Store) (r : Request) : Except Failure (Option Document) := do
  (← s.fetch r).next.1

/-- The documents of a resource after one was added. -/
theorem documents_insert {s t : Store} {resource other : String} {doc : Document}
    (h : s.insert resource (.object doc) = .ok t) :
    t.documents other =
      if other = resource then s.documents resource ++ [s.kind.kept doc]
      else s.documents other := by
  cases h
  simp only [documents, Fields.get?_set]
  split <;> simp_all

end Store

end PathQuery
