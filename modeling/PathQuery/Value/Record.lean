import PathQuery.Value.Refusal

/-!
# Value/Record — reading records from values

A record is written as an object or as the array of its fields in their declared order.  A `Reading`
declares the fields one after the other, each required, with a default, or optional, and `readRecord`
reads a value by it.  Unknown fields of an object are ignored, a repeated declared field is refused, and
an array may not be longer than the record.  Of several faults the first in the value is told; what is
absent is told after them.
-/

namespace PathQuery.Value

/-! ## Single values -/

/-- Reads a text. -/
def readText (v : Value) : Decoded String :=
  match v with
  | .string s => .ok s
  | v => refuse (.wrongType v "a string")

/-- Reads a boolean. -/
def readFlag (v : Value) : Decoded Bool :=
  match v with
  | .bool b => .ok b
  | v => refuse (.wrongType v "a boolean")

/-- Reads a count that fits an unsigned 64-bit word. -/
def readCount (v : Value) : Decoded Nat :=
  match v with
  | .number (.int i) => if 0 ≤ i then .ok i.toNat else refuse (.negative i "usize")
  | v => refuse (.wrongType v "usize")

/-- Reads an array, each item by `item`. -/
def readList (item : Value → Decoded α) (v : Value) : Decoded (List α) :=
  match v with
  | .array items => items.zipIdx.mapM fun (v, i) => (item v).mapError (Fault.within (.item i))
  | v => refuse (.wrongType v "a sequence")

/-- Reads the fields of an object, each value by `item`; the last value of a repeated name wins. -/
def readMap (item : Value → Decoded α) (v : Value) : Decoded (Fields α) :=
  match v with
  | .object fields =>
    let read (field : String × Value) : Decoded (String × α) :=
      match item field.2 with
      | .ok a => .ok (field.1, a)
      | .error f => .error (f.within (.field field.1))
    (fields.mapM read).map Fields.ofPairs
  | v => refuse (.wrongType v "a map")

/-! ## Records -/

/-- The declared fields of a record in order, each with the fault of a value, if it has one. -/
abbrev Declared := Fields (Value → Option Fault)

/-- How the fields of a record are read. -/
structure Reading (α : Type) where
  declared : Declared
  /-- What the values of the declared fields come to, absent ones being `none`.  Where absence has a
  refusal of its own, as in an array that is too short, `short` gives it by position. -/
  read : (short : Nat → Option Refusal) → List (Option Value) → Decoded α

namespace Reading

/-- The fault of a value, if it has one. -/
def faultOf (item : Value → Decoded α) (v : Value) : Option Fault :=
  match item v with
  | .ok _ => none
  | .error f => some f

/-- One declared field; `absent` gives what its absence comes to. -/
def field (name : String) (item : Value → Decoded α) (absent : Option Refusal → Decoded α) :
    Reading α where
  declared := [(name, faultOf item)]
  read short values :=
    match values.head?.join with
    | some v => item v
    | none => absent (short 0)

/-- A field that must be there. -/
def required (name : String) (item : Value → Decoded α) : Reading α :=
  field name item fun short => refuse (short.getD (.missingField name))

/-- A field with a default. -/
def orElse (name : String) (default : α) (item : Value → Decoded α) : Reading α :=
  field name item fun _ => .ok default

/-- Reads null as nothing. -/
def orNull (item : Value → Decoded α) : Value → Decoded (Option α)
  | .null => .ok none
  | v => (item v).map some

/-- A field that may be absent or null. -/
def optional (name : String) (item : Value → Decoded α) : Reading (Option α) :=
  orElse name none (orNull item)

/-- A field that may be null, and absent from an object but not from an array. -/
def nullable (name : String) (item : Value → Decoded α) : Reading (Option α) :=
  field name (orNull item) fun
    | some r => refuse r
    | none => .ok none

/-- Readings of some fields and then of others. -/
instance : Applicative Reading where
  pure a := ⟨[], fun _ _ => .ok a⟩
  seq f r :=
    let r := r ()
    let n := f.declared.length
    { declared := f.declared ++ r.declared
      read short values := do
        let g ← f.read short (values.take n)
        return g (← r.read (fun i => short (n + i)) (values.drop n)) }

end Reading

/-- The first fault among the fields of an object, in their order. -/
def faultInFields (declared : Declared) (seen : List String) :
    List (String × Value) → Option Fault
  | [] => none
  | (name, v) :: rest =>
    match declared.get? name with
    | none => faultInFields declared seen rest
    | some faultOf =>
      if seen.contains name then some ⟨[], .repeatedField name⟩
      else
        ((faultOf v).map (·.within (.field name))).or (faultInFields declared (name :: seen) rest)

/-- The first fault among the items of an array, in their order. -/
def faultInItems (declared : Declared) (items : List Value) : Option Fault :=
  (declared.zip items).zipIdx.findSome? fun ((field, v), i) =>
    (field.2 v).map (·.within (.item i))

/-- Reads a record of some name from the object of its fields, or from the array of their values. -/
def readRecord (name : String) (r : Reading α) (v : Value) : Decoded α :=
  match v with
  | .object fields =>
    match faultInFields r.declared [] fields with
    | some f => .error f
    | none => r.read (fun _ => none) (r.declared.map fun field => Fields.get? fields field.1)
  | .array items =>
    let count := r.declared.length
    match faultInItems r.declared items with
    | some f => .error f
    | none => do
      let values := (items.take count).map some ++ List.replicate (count - items.length) none
      let a ← r.read (fun i => some (.tooShort name count i)) values
      if count < items.length then .error ⟨[.item count], .tooLong items.length⟩
      return a
  | v => refuse (.wrongType v s!"struct {name}")

end PathQuery.Value
