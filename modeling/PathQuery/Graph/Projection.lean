import PathQuery.Graph.Join

/-!
# Graph/Projection — flat rows, one for each combination of joining rows

The hosts that join with a row of the last child are multiplied by the rows that they join with, child
by child; the fields of such a row become columns `edge.field` of the host.  A host that joins with no
row of a child stays as it is.  Rows of a root are cut down to the selected columns, if there are any.
-/

namespace PathQuery.Projection

/-- Gives a row the fields of a related row as columns. -/
def withColumns (edge : Navigation) (row related : Entity) : Entity :=
  row.setAll (related.map fun (name, value) => (s!"{edge.name}.{name}", value))

/-- The rows that a row makes with those of a child that it joins with. -/
def spread (edge : Navigation) (child : Collection) (row : Entity) :
    Except Failure (List Entity) := do
  match ← child.membersBy edge.relatedKey (← row.keyOf edge.hostKey) with
  | [] => return [row]
  | related => return related.map fun m => withColumns edge row m.entity

/-- The rows that some rows make with those of a child. -/
def spreadAll (rows : List Entity) (child : Collection × Navigation) :
    Except Failure (List Entity) :=
  (rows.mapM (spread child.2 child.1)).map List.flatten

/-- Adds rows as members of their own. -/
def addRows (c : Collection) (rows : List Entity) : Except Failure Collection :=
  rows.foldlM (fun c row => (c.add ⟨c.slots.length, row⟩).map (·.2)) c

/-- Adds the rows that one host makes. -/
def addHost (children : List (Collection × Navigation)) (c : Collection) (host : Entity) :
    Except Failure Collection := do
  addRows c (← children.foldlM spreadAll [host])

/-- A collection of one origin, with the primary key and the indexes of another as its indexes. -/
def layout (origin : Origin) (results : Collection) : Collection :=
  results.indexNames.foldl Collection.withIndex
    (results.primaryKey.toList.foldl Collection.withIndex (Collection.empty (some origin)))

/-- The rows of a collection with only the wanted columns, if any are wanted. -/
def cut (origin : Origin) (wanted : List String) (c : Collection) : Except Failure Collection :=
  if wanted.isEmpty then .ok c
  else addRows (Collection.empty (some origin)) (c.rows.map fun row => row.keep wanted.contains)

/-- The results of a node combined with those of its children. -/
def combine (origin : Origin) (wanted : List String) (results : Collection)
    (children : List Collection) : Except Failure Collection :=
  match children.getLast? with
  | none => cut origin wanted results
  | some last => do
    let seeded ← Collection.moveJoined (← last.navigation) last results (layout origin results)
    let edges ← children.mapM fun child => child.navigation.map fun edge => (child, edge)
    let combined ← seeded.rows.foldlM (addHost edges) seeded.emptyLike
    cut origin wanted combined

/-- Without wanted columns, a node without children has its results as they are. -/
@[simp] theorem combine_nil (origin : Origin) (results : Collection) :
    combine origin [] results [] = .ok results := rfl

end PathQuery.Projection
