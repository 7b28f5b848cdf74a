import PathQuery.Filter.Predicate
import PathQuery.Graph.Node
import PathQuery.Metadata.Catalog

/-!
# Graph/Build — the tree of nodes for some predicates and selected paths

Each path leads from the root along its edges to a node, one for each distinct way; nodes on the way are
created when a path first takes it.  A predicate then becomes a condition of that node's request, and a
selected path one of its selected fields.  The catalog that resolves types and edges is handed through,
so what was resolved is known even if building fails.
-/

namespace PathQuery

open PathQuery.Filter (Predicate PropertyPath)

/-- What building a tree changes: the catalog, and the paths of the nodes created so far, in the order of
their numbers. -/
structure Build.State where
  catalog : Catalog
  paths : List String

/-- Building something, which may fail. -/
abbrev Build := ExceptT Failure (StateM Build.State)

namespace Build

/-- Asks the catalog. -/
def ask (lookup : Catalog → Except Failure α × Catalog) : Build α :=
  fun s =>
    let (answer, catalog) := lookup s.catalog
    (answer, { s with catalog })

/-- A result that changes nothing. -/
def ofExcept (result : Except Failure α) : Build α := fun s => (result, s)

/-- The number of a new node at a path, where there is no node yet. -/
def claim (path resource : String) : Build Nat := fun s =>
  if path ∈ s.paths then (.error (.state (.alreadyExists path resource)), s)
  else (.ok s.paths.length, { s with paths := s.paths ++ [path] })

/-- A node for the resource of an entity type. -/
def newNode (path : String) (parent : Option Nat) (edge : Option Navigation) (type : EntityType) :
    Build Node := do
  let id ← claim path type.resource
  let key ← ofExcept type.primaryKey
  let plan : Node.Plan := ⟨id, path, parent, Request.ofEntity type, edge⟩
  let keyed := key.toList.foldl Collection.withPrimaryKey (Collection.empty (some plan.origin))
  let results := (edge.toList.map (·.relatedKey)).foldl Collection.withIndex keyed
  return ⟨plan, ⟨results, none, []⟩, []⟩

/-- Indexes the results of a node by the host's key of an edge. -/
def indexed (n : Node) (edge : Navigation) : Node :=
  { n with progress := { n.progress with results := n.progress.results.withIndex edge.hostKey } }

/-- A new child for an edge of a node. -/
def newChild (n : Node) (property : String) : Build (Navigation × Node) := do
  let edge ← ask (·.navigation n.plan.request.entity.name property)
  let type ← ask (·.entity edge.relatedEntity)
  let child ← newNode s!"{n.plan.path}/{property}" (some n.plan.id) (some edge) type
  return (edge, child)

/-- Whether a node is reached by a property of its parent. -/
def reachedBy (property : String) (n : Node) : Bool := n.plan.edge.any (·.name == property)

/-- Changes the request of the node at the end of some edges. -/
def changeAt (change : Request → Except Failure Request) : List String → Node → Build Node
  | [], n => do
    let request ← ofExcept (change n.plan.request)
    return { n with plan := { n.plan with request } }
  | property :: rest, n => do
    match n.children.findIdx? (reachedBy property) with
    | some i =>
      match n.children[i]? with
      | some child => return n.setChild i (← changeAt change rest child)
      | none => return n
    | none =>
      let (edge, child) ← newChild n property
      let child ← changeAt change rest child
      let n := indexed n edge
      return { n with children := n.children ++ [child] }

/-- Changes the request at a path, given the path's last name. -/
def changePath (change : String → Request → Except Failure Request) (path : PropertyPath)
    (n : Node) : Build Node :=
  changeAt (change path.field) path.hops n

/-- Adds a predicate. -/
def addPredicate (n : Node) (p : Predicate) : Build Node :=
  changePath (fun field request => request.addPredicate field p.operator p.value) p.path n

/-- Adds a selected path. -/
def addSelected (n : Node) (path : String) : Build Node :=
  changePath (fun field request => .ok (request.select field)) (.ofText path) n

/-- The tree for a resource. -/
def tree (resource : String) (predicates : List Predicate) (selected : List String) :
    Build Node := do
  let type ← ask (·.resource resource)
  let root ← newNode resource none none type
  let root ← predicates.foldlM addPredicate root
  selected.foldlM addSelected root

end Build

/-- The tree of nodes for a resource, some predicates and some selected paths. -/
def Node.ofQuery? (catalog : Catalog) (resource : String) (predicates : List Predicate)
    (selected : List String) : Except Failure Node × Catalog :=
  let (result, state) := (Build.tree resource predicates selected).run ⟨catalog, []⟩
  (result, state.catalog)

end PathQuery
