/-!
# Metadata/Navigation — edges between entity types

An edge leads from entities of a host type to the entities of a related type whose key has the value
of the host's key.  A scalar edge leads to one entity: the host carries a foreign key to the related
type's primary key.  A collection edge leads to many: they carry a foreign key to the host's primary
key.
-/

namespace PathQuery

/-- An edge with the keys that it joins by. -/
structure Navigation where
  name : String
  isScalar : Bool
  /-- The field of the host that is compared. -/
  hostKey : String
  /-- The field of the related entity that is compared. -/
  relatedKey : String
  /-- The name of the related entity type. -/
  relatedEntity : String
deriving DecidableEq, Repr

/-- How messages write an edge. -/
def Navigation.describe (n : Navigation) : String :=
  let kind := if n.isScalar then "1:1" else "1:many"
  s!"{n.name} ({n.hostKey} -> {n.relatedEntity}.{n.relatedKey}, {kind})"

end PathQuery
