import PathQuery.Graph.Node

/-!
# Graph/Bound — how many steps a walk over children can take

Between being opened and being exhausted, a node pulls each document of its resource at most once, and
for each it walks over its children.  A step of a walk either takes a turn of one child or goes back, and
each child starts over when an earlier one has moved on.  So the steps of a walk are bounded by a product
over the children, and the turns of a node by its documents times that product.
-/

namespace PathQuery.Node

/-- The number of documents that a request chooses from. -/
def supply (r : Registry) (request : Request) : Nat :=
  match r.documentsFor request with
  | .ok documents => documents.length
  | .error _ => 0

mutual

/-- A bound on the turns that a node takes before it is exhausted. -/
def turns (r : Registry) : Node → Nat
  | ⟨plan, _, children⟩ => (supply r plan.request + 2) * steps r children

/-- A bound on the steps of a walk over some children. -/
def steps (r : Registry) : List Node → Nat
  | [] => 1
  | child :: rest => (2 * turns r child + 2) * steps r rest

end

theorem turns_eq (r : Registry) (n : Node) :
    turns r n = (supply r n.plan.request + 2) * steps r n.children := by
  obtain ⟨plan, progress, children⟩ := n
  rfl

/-- A walk may always take a step. -/
theorem steps_pos (r : Registry) (children : List Node) : 0 < steps r children := by
  induction children with
  | nil => simp [steps]
  | cons child rest ih => exact Nat.mul_pos (by omega) ih

/-- A walk over the children of a node is no longer than the turns of the node. -/
theorem steps_le_turns (r : Registry) (n : Node) : steps r n.children ≤ turns r n := by
  rw [turns_eq]
  exact Nat.le_mul_of_pos_left _ (by omega)

end PathQuery.Node
