import PathQuery.Graph.Expand
import PathQuery.Graph.Node
import PathQuery.Graph.Projection

/-!
# Graph/Combination — the two shapes that combined results can have
-/

namespace PathQuery

/-- How the results of a node are combined with those of its children. -/
inductive Combination where
  /-- Related entities are embedded under the names of their edges. -/
  | expand
  /-- Fields of related entities become columns, one row for each combination. -/
  | projection
deriving DecidableEq, Repr

namespace Combination

/-- The name of a combination. -/
def name : Combination → String
  | expand => "expand"
  | projection => "projection"

/-- The combination that a text asks for, whatever the case of its letters. -/
def ofText? (text : String) : Except Failure Combination :=
  match text.toLower with
  | "expand" => .ok expand
  | "projection" => .ok projection
  | "project" => .ok projection
  | other => .error (.config (.unknownMode other))

/-- The results of a node combined with those of its children.  The rows of a root are cut down to the
selected columns in a projection. -/
def combine (c : Combination) (n : Node) (results : Collection) (children : List Collection) :
    Except Failure Collection :=
  match c with
  | expand => Expand.combine results children
  | projection =>
    let wanted := if n.isRoot then n.columns else []
    Projection.combine n.plan.origin wanted results children

end Combination

end PathQuery
