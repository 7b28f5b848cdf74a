import PathQuery.Graph.Fetch
import PathQuery.Store.Demand

/-!
# Graph — a tree of nodes with what it fetches from

A graph is prepared at its root and fetched from until it is exhausted.  `drain` does so and gathers the
batches that hold rows; the turns of the root bound the number of its fetches.  Stores that are not
known yet are opened when a node first asks for them.
-/

namespace PathQuery

/-- A tree of nodes, with what its nodes share. -/
structure Graph where
  fetcher : Fetcher
  root : Node

/-! ## Runs -/

/-- How a run of fetches ends. -/
inductive Ending where
  | exhausted
  | failed (failure : Failure)
  /-- The bound on the fetches was too small, which is never the case for the bound of a graph. -/
  | unfinished
deriving DecidableEq, Repr

/-- The batches that a run of fetches gives. -/
structure Run where
  /-- The batches that hold rows, in the order in which they came. -/
  batches : List Collection
  /-- The number of fetches. -/
  polls : Nat
  ending : Ending

namespace Run

/-- A run with one more fetch at its front, which gave nothing. -/
def poll (r : Run) : Run := { r with polls := r.polls + 1 }

/-- A run with one more fetch at its front, which gave a batch. -/
def push (batch : Collection) (r : Run) : Run :=
  { r.poll with batches := if batch.isEmpty then r.batches else batch :: r.batches }

/-- The rows of all batches. -/
def rows (r : Run) : List Entity := r.batches.flatMap (·.rows)

/-- Why a run ended before its time. -/
def failure? (r : Run) : Option Failure :=
  match r.ending with
  | .failed f => some f
  | _ => none

/-- The rows of all batches, if nothing failed. -/
def collected (r : Run) : Except Failure (List Entity) :=
  match r.ending with
  | .failed f => .error f
  | _ => .ok r.rows

end Run

/-! ## Fetching -/

namespace Graph

/-- The graph of a tree of nodes. -/
def ofRoot (registry : Registry) (combination : Combination) (batchSize : Nat) (root : Node) :
    Graph :=
  ⟨⟨registry, combination, batchSize, root.turns registry⟩, root⟩

/-- The graph over other stores. -/
def withRegistry (g : Graph) (registry : Registry) : Graph :=
  ofRoot registry g.fetcher.combination g.fetcher.batchSize g.root

/-- The nodes in the order of creation. -/
def nodes (g : Graph) : List Node := g.root.all.mergeSort fun a b => a.plan.id ≤ b.plan.id

/-- The node at a path. -/
def node? (g : Graph) (path : String) : Option Node := g.root.all.find? (·.plan.path == path)

/-- Applies an action at the root. -/
def atRoot (g : Graph) (action : Node → α × Node) : α × Graph :=
  let (a, root) := action g.root
  (a, { g with root })

/-- Applies an action at the node of a path. -/
def visit (g : Graph) (path : String) (action : Node → α × Node) : Option (α × Graph) :=
  (g.root.visit path action).map fun (a, root) => (a, { g with root })

/-- Opens the cursor of the root. -/
def prepareRoot (g : Graph) : Except Failure Unit × Graph :=
  g.atRoot (g.fetcher.openCursor none)

/-- Fetches from the root. -/
def fetch (g : Graph) : Except Failure Outcome × Graph := g.atRoot g.fetcher.fetch

/-- Gives up all cursors and kept results. -/
def reset (g : Graph) : Graph := { g with root := g.root.reset }

/-- Fetches until nothing is left, at most some number of times. -/
def drainWithin : (fetches : Nat) → Graph → Run
  | 0, _ => ⟨[], 0, .unfinished⟩
  | fetches + 1, g =>
    match g.fetch with
    | (.error f, _) => ⟨[], 1, .failed f⟩
    | (.ok .unfinished, _) => ⟨[], 1, .unfinished⟩
    | (.ok .exhausted, _) => ⟨[], 1, .exhausted⟩
    | (.ok .pending, g) => (drainWithin fetches g).poll
    | (.ok (.batch batch), g) => (drainWithin fetches g).push batch

/-- Fetches until nothing is left. -/
def drain (g : Graph) : Run := g.drainWithin (g.fetcher.steps + 1)

/-- Prepares the root and fetches until nothing is left. -/
def run (g : Graph) : Except Failure Run :=
  match g.prepareRoot with
  | (.error f, _) => .error f
  | (.ok (), g) => .ok g.drain

/-! ## Stores on demand -/

/-- Why a run did not start or ended before its time. -/
def failureOfRun (run : Except Failure Run) : Option Failure :=
  match run with
  | .error f => some f
  | .ok run => run.failure?

/-- What an action gives that acquires the stores that it asks for, and the graph after it. -/
def serve (g : Graph) (action : Graph → Except Failure α × Graph) : Except Failure α × Graph :=
  let ((result, after), registry) :=
    g.fetcher.registry.serve (fun r => action (g.withRegistry r)) fun answer => Failure.ofResult answer.1
  (result, after.withRegistry registry)

end Graph

end PathQuery
