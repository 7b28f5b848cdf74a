import PathQuery.Engine
import PathQuery.Gateway.Parameters
import PathQuery.Gateway.Response

/-!
# Gateway — answering requests with the rows of queries

A request for `/health` asks whether the store of the metadata answers.  A request for any other path of
one part asks for the rows of a resource; there is nothing at other paths.
-/

namespace PathQuery

/-- An engine that answers requests. -/
structure Gateway where
  engine : Engine
  /-- The container of the metadata. -/
  metadataContainer : String

namespace Gateway

/-- The version that a gateway reports. -/
def version : String := "0.1.0"

/-- The gateway of a configuration over an engine. -/
def ofEngine (config : Config) (engine : Engine) : Gateway := ⟨engine, config.metadata.container⟩

/-- Whether the store of the metadata answers, which is opened for that. -/
def health (g : Gateway) : Response × Gateway :=
  let (store, registry) := g.engine.registry.acquire g.metadataContainer
  let available := store.isOk
  (⟨200, some (.object [
    ("status", .string (if available then "healthy" else "degraded")),
    ("version", .string version), ("metadata_available", .bool available)])⟩,
    { g with engine := g.engine.withRegistry registry })

/-- The rows of a resource. -/
def rows (g : Gateway) (resource : String) (p : Parameters) : Response × Gateway :=
  match p.query resource with
  | .error f => (.ofFailure none f, g)
  | .ok q =>
    let (rows, engine) := g.engine.collect q
    let response := match rows with
      | .ok rows => ⟨200, some (.array (rows.map fun row => .object row.toDocument))⟩
      | .error f => .ofFailure p.filter f
    (response, { g with engine })

/-- The answer to a request for an address, and the gateway after it. -/
def answer (g : Gateway) (address : Address) : Response × Gateway :=
  match address.part? with
  | none => (.empty 404, g)
  | some part =>
    if part = "health" then g.health
    else
      match Text.pathPart? part, Parameters.ofForm? address.form with
      | some resource, some p => g.rows resource p
      | _, _ => (.empty 400, g)

end Gateway

end PathQuery
