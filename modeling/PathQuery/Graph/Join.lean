import PathQuery.Result.Collection

/-!
# Graph/Join — the members of a collection that an edge joins with other rows

The results of a child know the edge that leads to it.  A host joins with a related row when the host's
key and the row's key are the same.  `joining` narrows hosts to those that join; `moveJoined` takes them
out of one collection and puts them into another, so that each is taken once.
-/

namespace PathQuery.Collection

/-- Adds the hosts that join with a row. -/
def addJoined (edge : Navigation) (hosts joined : Collection) (row : Entity) :
    Except Failure Collection := do
  let members ← hosts.membersBy edge.hostKey (← row.keyOf edge.relatedKey)
  match joined.addAll members with
  | (.ok (), joined) => .ok joined
  | (.error f, _) => .error f

/-- The hosts that join with a row of some results, in the order of these rows. -/
def joining (hosts related : Collection) : Except Failure Collection := do
  let edge ← related.navigation
  related.rows.foldlM (addJoined edge hosts) hosts.emptyLike

/-- Two collections, of which members are moved from the first to the second. -/
structure Transfer where
  source : Collection
  target : Collection

/-- Moves one member. -/
def Transfer.move (t : Transfer) (m : Member) : Except Failure Transfer := do
  let (_, target) ← t.target.add m
  match t.source.remove m with
  | (.ok _, source) => .ok ⟨source, target⟩
  | (.error f, _) => .error f

/-- Moves the members that join with a row. -/
def Transfer.moveJoined (edge : Navigation) (t : Transfer) (row : Entity) :
    Except Failure Transfer := do
  (← t.source.membersBy edge.hostKey (← row.keyOf edge.relatedKey)).foldlM move t

/-- Moves every host that joins with a row of some results into an empty collection. -/
def moveJoined (edge : Navigation) (related hosts target : Collection) :
    Except Failure Collection :=
  (related.rows.foldlM (Transfer.moveJoined edge) ⟨hosts, target⟩).map (·.target)

end PathQuery.Collection
