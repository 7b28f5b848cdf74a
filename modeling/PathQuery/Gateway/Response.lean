import PathQuery.Failure
import PathQuery.Value

/-!
# Gateway/Response — status and body of an answer

A failure is answered with the status of its cause: a filter, predicate or configuration that cannot be
used is a bad request, metadata that is missing is not found, a store or file that does not answer is a
bad gateway, and the rest is internal.
-/

namespace PathQuery.Gateway

/-- The answer to a request.  A body is given if it is a value. -/
structure Response where
  status : Nat
  body : Option Value

/-- The status of a failure, and the code that stands for it. -/
def statusOf : Failure → Nat × String
  | .filter _ | .predicate _ | .config _ => (400, "BAD_REQUEST")
  | .metadata _ => (404, "NOT_FOUND")
  | .store _ | .file _ | .database _ => (502, "STORAGE_ERROR")
  | .state _ | .collection _ | .shape _ => (500, "INTERNAL_ERROR")

/-- The words of a failure; a fault in a filter is shown in its place in the filter. -/
def wordsOf (filter : Option String) (f : Failure) : String :=
  match f, filter with
  | .filter e, some filter => e.render (Text.trimmed filter)
  | f, _ => f.message

namespace Response

/-- An answer without value. -/
def empty (status : Nat) : Response := ⟨status, none⟩

/-- The answer to a request that fails. -/
def ofFailure (filter : Option String) (f : Failure) : Response :=
  let (status, code) := statusOf f
  ⟨status, some (.object [
    ("error", .bool true), ("code", .string code), ("message", .string (wordsOf filter f))])⟩

end Response

end PathQuery.Gateway
