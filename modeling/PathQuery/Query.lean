import PathQuery.Filter.Parse
import PathQuery.Graph.Combination
import PathQuery.Value.Record

/-!
# Query — what is asked for: a resource, a filter, selected paths, and the shape of the rows

A query is also written as a record.  Its filter is read after blanks around it are left out, and a blank
filter asks for everything.
-/

namespace PathQuery

/-- A question to the stores. -/
structure Query where
  /-- The resource at the root. -/
  entitySet : String
  filter : Option String
  /-- The selected paths. -/
  select : List String
  /-- The number of documents pulled at a time, if it is not the configured one. -/
  batchSize : Option Nat
  combination : Combination
deriving DecidableEq, Repr

namespace Query

/-- Everything of a resource, with related entities embedded. -/
def ofResource (resource : String) : Query := ⟨resource, none, [], none, .expand⟩

/-- The predicates of the filter. -/
def predicates (q : Query) : Except Failure (List Filter.Predicate) :=
  let filter := Text.trimmed (q.filter.getD "")
  if filter = "" then .ok [] else (Filter.predicates filter).mapError .filter

/-! ## Reading and writing -/

open Value Value.Reading

/-- Reads the name of a combination, which may be the only field of an object. -/
def readCombination (v : Value) : Decoded Combination :=
  match v with
  | .string "expand" | .object [("expand", .null)] => .ok .expand
  | .string "projection" | .object [("projection", .null)] => .ok .projection
  | v => refuse (.wrongType v "expand or projection")

/-- Reads a query. -/
def decode : Value → Decoded Query :=
  readRecord "QuerySpec" (Query.mk
    <$> required "entity_set" readText
    <*> nullable "filter" readText
    <*> required "select" (readList readText)
    <*> nullable "batch_size" readCount
    <*> required "mode" readCombination)

/-- The query that a value describes. -/
def ofValue? (v : Value) : Except Failure Query :=
  (decode v).mapError fun f => .shape f.refusal.describe

/-- The written form of a query. -/
def toValue (q : Query) : Value := .object [
  ("entity_set", .string q.entitySet), ("filter", .ofText? q.filter),
  ("select", .texts q.select), ("batch_size", .ofOption (q.batchSize.map .nat)),
  ("mode", .string q.combination.name)]

end Query

end PathQuery
