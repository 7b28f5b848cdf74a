import PathQuery.Graph.Bound
import PathQuery.Graph.Combination

/-!
# Graph/Fetch — pulling combined results out of a tree of nodes

A node is prepared by opening a cursor over the documents that join with its parent's, and then fetched
from until it is exhausted.  A leaf gives its documents batch by batch.  Any other node holds one batch of
its own and walks over its children in their order: the first child joins with that batch, and each
further child with the hosts that join with the last results of the child before it.  When every child
has results, they are combined with the batch.  A child that is exhausted is reset, and the child before
it gives its next results; when the first is exhausted, the node pulls its next batch.

A fetch gives its outcome together with the node after it, also when it fails.
-/

namespace PathQuery

/-- What a fetch comes to. -/
inductive Outcome where
  /-- Combined results; there may be more. -/
  | batch (results : Collection)
  /-- Nothing this time; there may be more. -/
  | pending
  /-- Everything was given. -/
  | exhausted
  /-- The bound on the steps was too small, which is never the case for the bound of a graph. -/
  | unfinished

/-- Where a walk over the children of a node ends. -/
inductive WalkEnd where
  /-- Every child has results. -/
  | joined
  /-- A child asks to be fetched from again. -/
  | pending
  /-- The first child is exhausted. -/
  | exhausted
  /-- The bound on the steps was too small. -/
  | unfinished
deriving DecidableEq, Repr

/-- What the nodes of a graph share. -/
structure Fetcher where
  registry : Registry
  combination : Combination
  batchSize : Nat
  /-- A bound on the steps of a walk. -/
  steps : Nat

namespace Fetcher

/-! ## Preparing -/

/-- The request of a node, restricted to what joins with some values of the host's key. -/
def requestFor (n : Node) (values : Option (List Value)) : Request :=
  match n.plan.edge, values with
  | some edge, some values => n.plan.request.restrictTo edge.relatedKey values
  | _, _ => n.plan.request

/-- Opens the cursor of an unready node; a node with children pulls its first batch. -/
def openCursor (f : Fetcher) (values : Option (List Value)) (n : Node) : Except Failure Unit × Node :=
  if n.status ≠ .unready then (.error (.state (.alreadyPrepared n.name)), n)
  else
    match f.registry.fetchBatches (requestFor n values) f.batchSize with
    | .error e => (.error e, n)
    | .ok cursor =>
      let results := n.progress.results.purge
      if n.isLeaf then (.ok (), { n with progress := ⟨results, some cursor, []⟩ })
      else
        match cursor.nextBatch results with
        | (.error e, _, results) => (.error e, { n with progress := ⟨results, none, []⟩ })
        | (.ok _, cursor, results) => (.ok (), { n with progress := ⟨results, some cursor, []⟩ })

/-- Prepares a node for what joins with some hosts; a root is prepared for everything. -/
def prepare (f : Fetcher) (hosts : Collection) (n : Node) : Except Failure Unit × Node :=
  match n.plan.edge with
  | none => f.openCursor none n
  | some edge =>
    match hosts.distinctValues edge.hostKey with
    | .error e => (.error e, n)
    | .ok values => f.openCursor (some values) n

/-- The values of the host's key that the child at a position is prepared for. -/
def valuesFor (n : Node) (i : Nat) (child : Node) : Except Failure (List Value) :=
  match child.plan.edge with
  | none => .error (.state (.childWithoutNavigation child.plan.path))
  | some edge =>
    match i with
    | 0 => n.progress.results.distinctValues edge.hostKey
    | i + 1 =>
      match n.progress.childResults[i]? with
      | none => .error (.state (.missingResults n.name i (i + 1)))
      | some previous => do
        (← n.progress.results.joining previous).distinctValues edge.hostKey

/-! ## Pulling -/

/-- Replaces the results of a node by the next batch of its cursor. -/
def pull (n : Node) (cursor : BatchCursor) : Except Failure Nat × Node :=
  let (pulled, cursor, results) := cursor.nextBatch n.progress.results.purge
  (pulled, { n with progress := { n.progress with results, cursor := some cursor } })

/-- Fetches from a leaf. -/
def fetchLeaf (f : Fetcher) (n : Node) (cursor : BatchCursor) : Except Failure Outcome × Node :=
  if cursor.hasMore then
    match pull n cursor with
    | (.error e, n) => (.error e, n)
    | (.ok _, n) =>
      let results := n.progress.results
      if results.isEmpty then (.ok .pending, n)
      else if n.isRoot then ((f.combination.combine n results []).map .batch, n)
      else (.ok (.batch results), n)
  else (.ok .exhausted, n)

/-- Goes on after the first child is exhausted: to the next batch, or to the end. -/
def advance (n : Node) (cursor : BatchCursor) : Except Failure Outcome × Node :=
  if cursor.hasMore then
    match pull n cursor with
    | (.error e, n) => (.error e, n)
    | (.ok _, n) => (.ok .pending, n.resetChildren)
  else (.ok .exhausted, n.reset)

/-! ## Walking -/

/-- A turn of the child at a position, prepared first if it is unready.  A child that is complete is
exhausted without being fetched from. -/
def turn (f : Fetcher) (fetch : Node → Except Failure Outcome × Node) (n : Node) (i : Nat)
    (child : Node) : Except Failure Outcome × Node :=
  match child.joinedStatus with
  | .complete => (.ok .exhausted, child)
  | .ready => fetch child
  | .unready =>
    match valuesFor n i child with
    | .error e => (.error e, child)
    | .ok values =>
      match f.openCursor (some values) child with
      | (.error e, child) => (.error e, child)
      | (.ok (), child) => fetch child

/-- Walks over the children from a position on, each being fetched from by `fetch`. -/
def walk (f : Fetcher) (fetch : Node → Except Failure Outcome × Node) :
    (steps i : Nat) → Node → Except Failure WalkEnd × Node
  | 0, _, n => (.ok .unfinished, n)
  | steps + 1, i, n =>
    match n.children[i]? with
    | none => (.ok .joined, n)
    | some child =>
      match f.turn fetch n i child with
      | (.error e, child) => (.error e, n.setChild i child)
      | (.ok .unfinished, child) => (.ok .unfinished, n.setChild i child)
      | (.ok .pending, child) => (.ok .pending, (n.setChild i child).keepBefore i)
      | (.ok (.batch results), child) =>
        walk f fetch steps (i + 1) ((n.setChild i child).keepResults i results)
      | (.ok .exhausted, child) =>
        let n := (n.setChild i child.reset).keepBefore i
        match i with
        | 0 => (.ok .exhausted, n)
        | i + 1 => walk f fetch steps i n

/-- The child at which a walk starts: the first without results, or the last. -/
def start (n : Node) : Nat := min n.progress.childResults.length (n.children.length - 1)

/-! ## Fetching -/

/-- Fetches from a node of some height at most. -/
def fetchWithin (f : Fetcher) : (height : Nat) → Node → Except Failure Outcome × Node
  | 0, n => (.ok .unfinished, n)
  | height + 1, n =>
    match n.progress.cursor with
    | none => (.error (.state (.notPrepared n.name)), n)
    | some cursor =>
      if n.isLeaf then f.fetchLeaf n cursor
      else
        match walk f (fetchWithin f height) f.steps (start n) n with
        | (.error e, n) => (.error e, n)
        | (.ok .unfinished, n) => (.ok .unfinished, n)
        | (.ok .pending, n) => (.ok .pending, n)
        | (.ok .exhausted, n) => advance n cursor
        | (.ok .joined, n) =>
          let combined := f.combination.combine n n.progress.results n.progress.childResults
          (combined.map .batch, n)

/-- Fetches from a node. -/
def fetch (f : Fetcher) (n : Node) : Except Failure Outcome × Node := f.fetchWithin n.height n

end Fetcher

end PathQuery
