import PathQuery.Proofs.Result.Layout

/-!
# Proofs/Result/Roll — the plain list that a collection stands for

A *roll* is a plain list of members, each with the number of its slot.  Every operation on it is a scan of
the list: a member is told from the others by the primary key or, without one, by its identity.  The roll
of a collection has its members in their slots; dead slots, the count, the map of the primary keys and the
indexes are no part of it.
-/

namespace PathQuery

/-! ## Plain lists of members -/

/-- A plain list of members, with the fields by which they are told apart and found. -/
structure Roll where
  primaryKey : Option String
  indexNames : List String
  /-- The members in the order in which they were added, each with its slot. -/
  entries : List (Nat × Member)
  /-- The slot of the next member. -/
  next : Nat

/-- What an operation answers: whether it did something, or why it could not. -/
abbrev Answer := Except Failure Bool

namespace Roll

variable (r : Roll)

/-- No members and no fields. -/
def empty : Roll := ⟨none, [], [], 0⟩

/-- The test for a member that counts as the same: by the primary key, or by identity without one. -/
def sameAs (m : Member) : Except Failure (Member → Bool) :=
  match r.primaryKey with
  | some field => (m.entity.keyOf field).map fun key n => n.entity.hasKey field key
  | none => .ok fun n => n.identity == m.identity

theorem sameAs_of_some {r : Roll} {field : String} (hp : r.primaryKey = some field) (m : Member) :
    r.sameAs m = (m.entity.keyOf field).map fun key n => n.entity.hasKey field key := by
  rw [sameAs, hp]

theorem sameAs_of_none {r : Roll} (hp : r.primaryKey = none) (m : Member) :
    r.sameAs m = .ok fun n => n.identity == m.identity := by
  rw [sameAs, hp]

/-- Makes a field the primary key; it fails while there are members. -/
def setPrimaryKey (field : String) : Answer × Roll :=
  if field = "" then (.ok true, r)
  else if r.entries ≠ [] then
    (.error (.collection (.declaredLate "set primary key" field r.entries.length)), r)
  else (.ok true, { r with primaryKey := some field, indexNames := r.indexNames.filter (· != field) })

/-- Declares an index; it fails while there are members. -/
def addIndex (field : String) : Answer × Roll :=
  if r.entries ≠ [] then
    (.error (.collection (.declaredLate "add index" field r.entries.length)), r)
  else if field = "" ∨ r.primaryKey = some field ∨ field ∈ r.indexNames then (.ok true, r)
  else (.ok true, { r with indexNames := r.indexNames ++ [field] })

/-- Appends a member; it fails if an index field has no key. -/
def append (m : Member) : Answer × Roll :=
  match Collection.indexKeys m.entity r.indexNames with
  | .error f => (.error f, r)
  | .ok _ => (.ok true, { r with entries := r.entries ++ [(r.next, m)], next := r.next + 1 })

/-- Appends a member unless the same one is there. -/
def add (m : Member) : Answer × Roll :=
  match r.sameAs m with
  | .error f => (.error f, r)
  | .ok same => if r.entries.any fun e => same e.2 then (.ok false, r) else r.append m

/-- Takes the same member out. -/
def remove (m : Member) : Answer × Roll :=
  match r.sameAs m with
  | .error f => (.error f, r)
  | .ok same =>
    (.ok (r.entries.any fun e => same e.2), { r with entries := r.entries.filter fun e => !same e.2 })

/-- Takes all members out and starts the slots anew. -/
def purge : Answer × Roll := (.ok true, { r with entries := [], next := 0 })

/-- Changes the member in a slot. -/
def edit (slot : Nat) (f : Member → Member) : Answer × Roll :=
  (.ok (r.entries.any fun e => e.1 == slot),
    { r with entries := r.entries.map fun e => if e.1 = slot then (e.1, f e.2) else e })

/-- The slots whose member has a key in the primary key or an index field. -/
def slotsBy (field : String) (key : IndexKey) : Except Failure (List Nat) :=
  if r.primaryKey = some field ∨ field ∈ r.indexNames then
    .ok ((r.entries.filter fun e => e.2.entity.hasKey field key).map (·.1))
  else .error (.collection (.undefinedIndex field))

end Roll

/-! ## Operations -/

/-- An operation on a collection or on a roll. -/
inductive Operation where
  | setPrimaryKey (field : String)
  | addIndex (field : String)
  | add (m : Member)
  | remove (m : Member)
  | purge
  | edit (slot : Nat) (f : Member → Member)

/-- What an operation that can fail before it changes anything comes to. -/
def Collection.orKeep (c : Collection) : Except Failure (Bool × Collection) → Answer × Collection
  | .ok (b, d) => (.ok b, d)
  | .error f => (.error f, c)

namespace Operation

/-- An operation on a collection. -/
def onCollection : Operation → Collection → Answer × Collection
  | setPrimaryKey field, c => c.orKeep ((c.setPrimaryKey field).map (true, ·))
  | addIndex field, c => c.orKeep ((c.addIndex field).map (true, ·))
  | add m, c => c.orKeep (c.add m)
  | remove m, c => c.remove m
  | purge, c => (.ok true, c.purge)
  | edit slot f, c => (.ok (c.member? slot).isSome, c.edit slot f)

/-- The same operation on a roll. -/
def onRoll : Operation → Roll → Answer × Roll
  | setPrimaryKey field, r => r.setPrimaryKey field
  | addIndex field, r => r.addIndex field
  | add m, r => r.add m
  | remove m, r => r.remove m
  | purge, r => r.purge
  | edit slot f, r => r.edit slot f

/-- An edit keeps the keys that a member is found by, and its identity unless it gives a new one. -/
def Keeps (c : Collection) : Operation → Prop
  | edit slot f => ∀ m, c.member? slot = some m →
      (∀ field, c.Tracks field → (f m).entity.keyOf field = m.entity.keyOf field) ∧
        ((f m).identity = m.identity ∨ ∀ n ∈ c.members, n.identity ≠ (f m).identity)
  | _ => True

/-- Operations one after the other, with their answers. -/
def runAll {σ : Type} (step : Operation → σ → Answer × σ) : List Operation → σ → List Answer × σ
  | [], s => ([], s)
  | op :: ops, s =>
    let (answer, s) := step op s
    let (answers, s) := runAll step ops s
    (answer :: answers, s)

/-- Every edit of a sequence keeps the keys of the member that it finds. -/
def KeepAll (c : Collection) : List Operation → Prop
  | [] => True
  | op :: ops => op.Keeps c ∧ KeepAll (op.onCollection c).2 ops

end Operation

/-- What is read off a collection is read off a roll. -/
structure Refines (c : Collection) (r : Roll) : Prop where
  primaryKey_eq : c.primaryKey = r.primaryKey
  indexNames_eq : c.indexNames = r.indexNames
  members_eq : c.members = r.entries.map (·.2)
  size_eq : c.size = r.entries.length
  liveSlots_eq : c.liveSlots = r.entries.map (·.1)
  ascending : (r.entries.map (·.1)).Pairwise (· < ·)
  member?_eq_some_iff : ∀ slot m, c.member? slot = some m ↔ (slot, m) ∈ r.entries
  slotsBy_eq : ∀ field key, c.slotsBy field key = r.slotsBy field key
  distinct : r.entries.Pairwise fun a b => ∀ same, r.sameAs a.2 = .ok same → same b.2 = false

namespace Collection

/-! ## The roll of a collection -/

/-- The members with their slots. -/
def entries (c : Collection) : List (Nat × Member) :=
  (List.range c.slots.length).filterMap fun s => (c.member? s).map (s, ·)

/-- The plain list that a collection stands for. -/
def roll (c : Collection) : Roll := ⟨c.primaryKey, c.indexNames, c.entries, c.slots.length⟩

@[simp] theorem primaryKey_roll (c : Collection) : c.roll.primaryKey = c.primaryKey := rfl

@[simp] theorem indexNames_roll (c : Collection) : c.roll.indexNames = c.indexNames := rfl

@[simp] theorem entries_roll (c : Collection) : c.roll.entries = c.entries := rfl

@[simp] theorem next_roll (c : Collection) : c.roll.next = c.slots.length := rfl

variable {c d : Collection} {slot : Nat} {m : Member} {field : String} {key : IndexKey}

theorem mem_entries_iff : (slot, m) ∈ c.entries ↔ c.member? slot = some m := by
  rw [entries, List.mem_filterMap]
  constructor
  · rintro ⟨s, -, h⟩
    obtain ⟨n, hn, he⟩ := Option.map_eq_some_iff.mp h
    cases he
    exact hn
  · intro h
    exact ⟨slot, List.mem_range.mpr (lt_length_of_member? h), by rw [h]; rfl⟩

theorem map_snd_entries (c : Collection) : c.entries.map (·.2) = c.members := by
  rw [entries, members_eq, List.map_filterMap]
  refine List.filterMap_congr fun s _ => ?_
  cases c.member? s <;> rfl

theorem length_entries (c : Collection) : c.entries.length = c.members.length := by
  rw [← map_snd_entries, List.length_map]

theorem entries_eq_nil_iff : c.entries = [] ↔ c.members = [] := by
  rw [← map_snd_entries, List.map_eq_nil_iff]

theorem map_fst_filter_entries (c : Collection) (test : Member → Bool) :
    (c.entries.filter fun e => test e.2).map (·.1) =
      (List.range c.slots.length).filter fun s => (c.member? s).any test := by
  rw [entries, List.filter_filterMap, List.map_filterMap, ← List.filterMap_eq_filter]
  refine List.filterMap_congr fun s _ => ?_
  cases hm : c.member? s with
  | none => simp [Option.guard, hm]
  | some m => cases ht : test m <;> simp [Option.filter, Option.guard, hm, ht]

theorem map_fst_entries (c : Collection) : c.entries.map (·.1) = c.liveSlots := by
  have h := map_fst_filter_entries c fun _ => true
  rw [List.filter_true] at h
  rw [h, liveSlots]
  refine List.filter_congr fun s _ => ?_
  cases c.member? s <;> rfl

theorem ascending_entries (c : Collection) : (c.entries.map (·.1)).Pairwise (· < ·) := by
  rw [map_fst_entries]
  exact List.pairwise_lt_range.filter _

end Collection

end PathQuery
