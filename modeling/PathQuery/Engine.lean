import PathQuery.Graph
import PathQuery.Graph.Build
import PathQuery.Query

/-!
# Engine — answering queries from configured stores

An engine knows the stores, the catalog of metadata, and the batch size.  Each query has a graph of its
own; what the catalog resolves for one query is known to the next, so a query gives its result together
with the engine after it.
-/

namespace PathQuery

/-- What queries are answered from. -/
structure Engine where
  catalog : Catalog
  batchSize : Nat

namespace Engine

/-- The engine of a configuration over some stores. -/
def ofRegistry (config : Config) (registry : Registry) : Engine :=
  ⟨.ofConfig config registry, config.batchSize⟩

/-- The engine of a valid configuration. -/
def ofConfig? (config : Config) (files : Files) : Except Failure Engine := do
  config.validate
  return ofRegistry config (.ofConfig config files)

/-- The stores. -/
def registry (e : Engine) : Registry := e.catalog.registry

/-- The batch size of a query. -/
def batchSizeOf (e : Engine) (q : Query) : Except Failure Nat :=
  match q.batchSize.getD e.batchSize with
  | 0 => .error (.config .zeroQueryBatchSize)
  | size => .ok size

/-- The engine with other stores. -/
def withRegistry (e : Engine) (registry : Registry) : Engine :=
  { e with catalog := { e.catalog with registry } }

/-- The graph of a query, which is not prepared. -/
def graph (e : Engine) (q : Query) : Except Failure Graph × Engine :=
  let checked : Except Failure (List Filter.Predicate × Nat) := do
    let predicates ← q.predicates
    return (predicates, ← e.batchSizeOf q)
  match checked with
  | .error f => (.error f, e)
  | .ok (predicates, batchSize) =>
    let (root, catalog) := Node.ofQuery? e.catalog q.entitySet predicates q.select
    (root.map (.ofRoot catalog.registry q.combination batchSize), { e with catalog })

/-- The batches that answer a query.  The stores that were opened for it stay open for later ones. -/
def run (e : Engine) (q : Query) : Except Failure Run × Engine :=
  match e.graph q with
  | (.error f, e) => (.error f, e)
  | (.ok g, e) =>
    let (run, registry) := e.registry.serve (fun r => (g.withRegistry r).run) Graph.failureOfRun
    (run, e.withRegistry registry)

/-- The rows that answer a query. -/
def collect (e : Engine) (q : Query) : Except Failure (List Entity) × Engine :=
  let (run, e) := e.run q
  (run.bind (·.collected), e)

end Engine

end PathQuery
