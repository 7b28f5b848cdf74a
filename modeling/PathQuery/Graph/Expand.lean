import PathQuery.Graph.Join

/-!
# Graph/Expand — rows with the entities that they join with embedded in them

The rows are the hosts that join with a row of the last child.  Each carries under the name of a
collection edge the list of the rows that it joins with, and under that of a scalar edge the first of
them, if there is one.
-/

namespace PathQuery.Expand

/-- Embeds a related row in a host: at the end of a list, or as the first at a scalar edge. -/
def embed (edge : Navigation) (related : Document) (host : Entity) : Entity :=
  if edge.isScalar then
    if (host.get? edge.name).any FieldValue.isEntity then host
    else host.set edge.name (.one (some related))
  else host.pushRelated edge.name related

/-- Embeds a row of the last child in the hosts that it joins with. -/
def embedLast (edge : Navigation) (combined : Collection) (related : Entity) :
    Except Failure Collection := do
  let slots ← combined.slotsBy edge.hostKey (← related.keyOf edge.relatedKey)
  return slots.foldl (fun c slot => c.editRow slot (embed edge related.toDocument)) combined

/-- The field that a host has for the rows that it joins with. -/
def fieldOf (edge : Navigation) (related : List Member) : FieldValue :=
  let documents := related.map (·.entity.toDocument)
  if edge.isScalar then .one documents.head? else .many documents

/-- Embeds the rows of a child in the host of a slot. -/
def embedSlot (edge : Navigation) (child combined : Collection) (slot : Nat) :
    Except Failure Collection :=
  match combined.member? slot with
  | none => .ok combined
  | some host => do
    let related ← child.membersBy edge.relatedKey (← host.entity.keyOf edge.hostKey)
    return combined.editRow slot (·.set edge.name (fieldOf edge related))

/-- Embeds the rows of a child in every host. -/
def embedChild (combined child : Collection) : Except Failure Collection := do
  let edge ← child.navigation
  combined.liveSlots.foldlM (embedSlot edge child) combined

/-- The results of a node combined with those of its children. -/
def combine (results : Collection) (children : List Collection) : Except Failure Collection :=
  match children.getLast? with
  | none => .ok results
  | some last => do
    let edge ← last.navigation
    let joined ← Collection.moveJoined edge last results results.emptyLike
    let embedded ← last.rows.foldlM (embedLast edge) joined
    children.dropLast.reverse.foldlM embedChild embedded

/-- A node without children has its results as they are. -/
@[simp] theorem combine_nil (results : Collection) : combine results [] = .ok results := rfl

end PathQuery.Expand
