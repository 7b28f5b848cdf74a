import PathQuery.Store.Registry

/-!
# Store/Demand — stores that are acquired when they are first asked for

An action on stores is a function of a registry.  It is performed with those stores alone that are known;
where it asks for another, which it does by failing for want of parameters, that store is acquired and
the action is performed anew.  So the stores are acquired in the order in which they are asked for, and
one that is never asked for is not opened.  When a store cannot be opened, neither are those after it.
-/

namespace PathQuery

/-- The container whose parameters are wanting. -/
def Failure.wanting : Failure → Option String
  | config (.noParameters container) => some container
  | _ => none

/-- What an action may have failed for. -/
def Failure.ofResult (result : Except Failure α) : Option Failure :=
  match result with
  | .ok _ => none
  | .error f => some f

namespace Registry

/-- The registry with no more than the stores that are known. -/
def known (r : Registry) : Registry := { r with parameters := [] }

/-- Performs an action and acquires some number of stores at most. -/
def serveWithin (action : Registry → α) (failure : α → Option Failure) :
    (stores : Nat) → Registry → α × Registry
  | 0, r => (action r, r)
  | stores + 1, r =>
    let result := action r.known
    match (failure result).bind Failure.wanting with
    | none => (result, r)
    | some container =>
      match r.acquire container with
      | (.error _, after) => (action r, after)
      | (.ok _, r) => serveWithin action failure stores r

/-- What an action gives, and the registry with the stores that it asked for. -/
def serve (r : Registry) (action : Registry → α) (failure : α → Option Failure) : α × Registry :=
  serveWithin action failure (r.parameters.length + 1) r

/-- An action that asks for no new store leaves the registry as it is. -/
theorem serve_eq_of_wanting {r : Registry} {action : Registry → α} {failure : α → Option Failure}
    (h : (failure (action r.known)).bind Failure.wanting = none) :
    r.serve action failure = (action r.known, r) := by
  simp only [serve, serveWithin, h]

end Registry

end PathQuery
