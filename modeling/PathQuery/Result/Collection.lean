import PathQuery.Failure
import PathQuery.Metadata.Navigation
import PathQuery.Result.Entity
import PathQuery.Result.IndexKey
import PathQuery.Value.Printer

/-!
# Result/Collection — ordered rows without repetitions, found by keys

A collection holds its members in the order in which they were added.  With a primary key it holds one
member for each key; without one it holds each member once, members being told apart by their identity.
Declared indexes find the slots of a key.  Slots are numbered as members are added, and the slot of a
removed member stays empty until the collection is purged.

Key and index fields are read when a member is added and again when it is removed; a member whose key
fields were edited in between is still found under the keys that it was added with.
-/

namespace PathQuery

/-- The node of a fetch graph that a collection comes from. -/
structure Origin where
  id : Nat
  path : String
  /-- The edge that leads to the node, none at the root. -/
  navigation : Option Navigation
deriving DecidableEq, Repr

/-- A row with the identity that tells it from other rows of equal fields. -/
structure Member where
  identity : Nat
  entity : Entity
deriving Repr, Inhabited

/-- Ordered members with a primary key and indexes. -/
structure Collection where
  origin : Option Origin
  primaryKey : Option String
  /-- The declared indexes by field. -/
  indexes : Fields Index
  /-- The members by slot. -/
  slots : List (Option Member)
  /-- The number of members. -/
  size : Nat
  /-- The slots of the primary keys. -/
  byKey : List (IndexKey × Nat)
deriving Repr

namespace Collection

/-! ## Layout -/

/-- A collection without members, key and indexes. -/
def empty (origin : Option Origin) : Collection := ⟨origin, none, [], [], 0, []⟩

instance : Inhabited Collection := ⟨empty none⟩

/-- The fields with a declared index. -/
def indexNames (c : Collection) : List String := c.indexes.names

/-- Declares an index unless the field has one. -/
def withIndex (c : Collection) (field : String) : Collection :=
  if field = "" ∨ c.primaryKey = some field ∨ c.indexes.has field then c
  else { c with indexes := c.indexes ++ [(field, [])] }

/-- Makes a field the primary key, which is then no index. -/
def withPrimaryKey (c : Collection) (field : String) : Collection :=
  if field = "" then c
  else { c with primaryKey := some field, indexes := c.indexes.keep (· != field) }

/-- A collection without members, of the same origin, key and indexes. -/
def emptyLike (c : Collection) : Collection :=
  { empty c.origin with primaryKey := c.primaryKey, indexes := c.indexes.mapValues fun _ => [] }

/-- The refusal of a declaration while there are members. -/
def checkEmpty (c : Collection) (action field : String) : Except Failure Unit :=
  if 0 < c.size then .error (.collection (.declaredLate action field c.size)) else .ok ()

/-- Makes a field the primary key of a collection without members; no field means no change. -/
def setPrimaryKey (c : Collection) (field : String) : Except Failure Collection :=
  if field = "" then .ok c
  else (c.checkEmpty "set primary key" field).map fun _ => c.withPrimaryKey field

/-- Declares an index of a collection without members. -/
def addIndex (c : Collection) (field : String) : Except Failure Collection :=
  (c.checkEmpty "add index" field).map fun _ => c.withIndex field

/-- Declares several indexes one after the other. -/
def addIndexes (c : Collection) : List String → Except Failure Collection
  | [] => .ok c
  | field :: rest =>
    match c.addIndex field with
    | .ok c => addIndexes c rest
    | .error e => .error e

/-! ## Views -/

/-- The members in the order in which they were added. -/
def members (c : Collection) : List Member := c.slots.filterMap id

/-- The rows in the order in which they were added. -/
def rows (c : Collection) : List Entity := c.members.map (·.entity)

/-- Whether there is no member. -/
def isEmpty (c : Collection) : Bool := c.size == 0

/-- The member in a slot. -/
def member? (c : Collection) (slot : Nat) : Option Member := (c.slots[slot]?).join

/-- The numbers of the slots that hold a member, ascending. -/
def liveSlots (c : Collection) : List Nat :=
  (List.range c.slots.length).filter fun slot => (c.member? slot).isSome

end Collection

/-- The key that a row has in a field. -/
def Entity.keyOf (e : Entity) (field : String) : Except Failure IndexKey :=
  match e.value? field with
  | none => .error (.collection (.missingIndexField field))
  | some v =>
    match IndexKey.ofValue? v with
    | some key => .ok key
    | none => .error (.collection (.compositeIndexValue field v.print))

namespace Collection

/-! ## Adding -/

/-- The slot of a primary key. -/
def slotOfKey? (c : Collection) (key : IndexKey) : Option Nat :=
  (c.byKey.find? (·.1 == key)).map (·.2)

/-- Whether a member with an identity is there. -/
def holds (c : Collection) (identity : Nat) : Bool :=
  c.members.any (·.identity == identity)

/-- The keys of a row for the declared indexes, in their order. -/
def indexKeys (e : Entity) : List String → Except Failure (List IndexKey)
  | [] => .ok []
  | field :: rest =>
    match e.keyOf field with
    | .error f => .error f
    | .ok key => (indexKeys e rest).map (key :: ·)

/-- Appends a member with its primary key, if any, and its index keys. -/
def append (c : Collection) (m : Member) (key : Option IndexKey) (keys : List IndexKey) :
    Collection :=
  let slot := c.slots.length
  { c with
    slots := c.slots ++ [some m]
    size := c.size + 1
    byKey := match key with
      | some k => (k, slot) :: c.byKey
      | none => c.byKey
    indexes := (c.indexes.zip keys).map fun ((field, index), k) => (field, index.add k slot) }

/-- Adds a member; gives false and changes nothing if it is there already. -/
def add (c : Collection) (m : Member) : Except Failure (Bool × Collection) :=
  match c.primaryKey with
  | some field =>
    match m.entity.keyOf field with
    | .error f => .error f
    | .ok key =>
      if (c.slotOfKey? key).isSome then .ok (false, c)
      else (indexKeys m.entity c.indexNames).map fun keys => (true, c.append m (some key) keys)
  | none =>
    if c.holds m.identity then .ok (false, c)
    else (indexKeys m.entity c.indexNames).map fun keys => (true, c.append m none keys)

/-- Adds members one after the other, up to the first that cannot be added. -/
def addAll (c : Collection) : List Member → Except Failure Unit × Collection
  | [] => (.ok (), c)
  | m :: rest =>
    match c.add m with
    | .ok (_, c) => addAll c rest
    | .error f => (.error f, c)

/-! ## Removing -/

/-- The slot in which a member is found: by its primary key, or else by its identity. -/
def findSlot? (c : Collection) (m : Member) : Except Failure (Option Nat) :=
  match c.primaryKey with
  | some field => (m.entity.keyOf field).map c.slotOfKey?
  | none =>
    .ok ((List.range c.slots.length).find? fun slot =>
      (c.member? slot).any (·.identity == m.identity))

/-- Takes a slot out of the indexes under the keys of a row, up to the first key that it lacks. -/
def dropKeys (e : Entity) (slot : Nat) : Fields Index → Except Failure Unit × Fields Index
  | [] => (.ok (), [])
  | (field, index) :: rest =>
    match e.keyOf field with
    | .error f => (.error f, (field, index) :: rest)
    | .ok key =>
      let (result, rest) := dropKeys e slot rest
      (result, (field, index.drop key slot) :: rest)

/-- Takes the primary key of a row out. -/
def dropPrimary (c : Collection) (e : Entity) : Except Failure Unit × Collection :=
  match c.primaryKey with
  | none => (.ok (), c)
  | some field =>
    match e.keyOf field with
    | .error f => (.error f, c)
    | .ok key => (.ok (), { c with byKey := c.byKey.filter (·.1 != key) })

/-- Removes the member that is found for `m`; gives false if there is none.  A member that lacks a key
leaves its slot all the same. -/
def remove (c : Collection) (m : Member) : Except Failure Bool × Collection :=
  match c.findSlot? m with
  | .error f => (.error f, c)
  | .ok none => (.ok false, c)
  | .ok (some slot) =>
    match c.member? slot with
    | none => (.ok false, c)
    | some stored =>
      let (dropped, indexes) := dropKeys stored.entity slot c.indexes
      let c := { c with slots := c.slots.set slot none, indexes }
      match dropped with
      | .error f => (.error f, c)
      | .ok () =>
        match c.dropPrimary stored.entity with
        | (.error f, c) => (.error f, c)
        | (.ok (), c) => (.ok true, { c with size := c.size - 1 })

/-- Removes every member and keeps the layout. -/
def purge (c : Collection) : Collection :=
  { c with slots := [], size := 0, byKey := [], indexes := c.indexes.mapValues fun _ => [] }

/-! ## Finding -/

/-- The slots whose field has a key; the field is the primary key or has an index. -/
def slotsBy (c : Collection) (field : String) (key : IndexKey) : Except Failure (List Nat) :=
  if c.primaryKey = some field then .ok (c.slotOfKey? key).toList
  else
    match c.indexes.get? field with
    | some index => .ok (index.slotsOf key)
    | none => .error (.collection (.undefinedIndex field))

/-- The members whose field has a key. -/
def membersBy (c : Collection) (field : String) (key : IndexKey) : Except Failure (List Member) :=
  (c.slotsBy field key).map fun slots => slots.filterMap c.member?

/-- Changes the member in a slot, whose keys stay as they were. -/
def edit (c : Collection) (slot : Nat) (f : Member → Member) : Collection :=
  { c with slots := c.slots.modify slot (Option.map f) }

/-- Changes the row in a slot. -/
def editRow (c : Collection) (slot : Nat) (f : Entity → Entity) : Collection :=
  c.edit slot fun m => { m with entity := f m.entity }

/-- The keys of a field over some rows, in order. -/
def keysOf (field : String) : List Entity → Except Failure (List IndexKey)
  | [] => .ok []
  | e :: rest =>
    match e.keyOf field with
    | .error f => .error f
    | .ok key => (keysOf field rest).map (key :: ·)

/-- The first occurrences in a list of keys, after some that were seen. -/
def firstOccurrences (seen : List IndexKey) : List IndexKey → List IndexKey
  | [] => []
  | key :: rest =>
    if seen.contains key then firstOccurrences seen rest
    else key :: firstOccurrences (key :: seen) rest

/-- The distinct keys of a field: those of the primary key in the order of the members, those of an
index in ascending order, those of any other field in the order of their first appearance. -/
def distinctKeys (c : Collection) (field : String) : Except Failure (List IndexKey) :=
  if c.primaryKey = some field then keysOf field c.rows
  else
    match c.indexes.get? field with
    | some index => .ok index.keys
    | none => (keysOf field c.rows).map (firstOccurrences [])

/-- The distinct values of a field. -/
def distinctValues (c : Collection) (field : String) : Except Failure (List Value) :=
  (c.distinctKeys field).map (·.map IndexKey.toValue)

/-- The edge of the node that a collection comes from. -/
def navigation (c : Collection) : Except Failure Navigation :=
  match c.origin with
  | none => .error (.collection .noOwner)
  | some origin =>
    match origin.navigation with
    | some n => .ok n
    | none => .error (.collection (.noNavigation origin.path))

end Collection

end PathQuery
