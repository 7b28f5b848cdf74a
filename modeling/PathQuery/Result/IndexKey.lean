import PathQuery.Value

/-!
# Result/IndexKey — values as keys, and indexes from keys to slots

A scalar value has a key.  Numbers are cut to integers of a signed word, since some stores keep integer
keys as doubles.  Keys are ordered by kind, then by value.  An index is a list of keys in ascending order,
each with the slots that have it, in the order in which they were added.
-/

namespace PathQuery

/-- A normalised scalar. -/
inductive IndexKey where
  | null
  | bool (value : Bool)
  | int (value : Int)
  | text (value : String)
deriving DecidableEq, Repr, Inhabited

namespace IndexKey

/-- The key of a scalar value; arrays and objects have none. -/
def ofValue? : Value → Option IndexKey
  | .null => some null
  | .bool b => some (bool b)
  | .number n => some (int n.truncated)
  | .string s => some (text s)
  | .array _ => none
  | .object _ => none

/-- A key as a value. -/
def toValue : IndexKey → Value
  | null => .null
  | bool b => .bool b
  | int i => .int i
  | text s => .string s

/-- How messages write a key. -/
def describe : IndexKey → String
  | null => "null"
  | bool b => if b then "true" else "false"
  | int i => toString i
  | text s => s!"'{s}'"

/-- Whether a key comes before another: null, booleans, integers, texts. -/
def precedes : IndexKey → IndexKey → Bool
  | null, null => false
  | null, _ => true
  | bool a, bool b => !a && b
  | bool _, int _ => true
  | bool _, text _ => true
  | int a, int b => a < b
  | int _, text _ => true
  | text a, text b => (String.compare a b).isLT
  | _, _ => false

/-- No key comes before itself. -/
theorem precedes_self (k : IndexKey) : k.precedes k = false := by
  cases k with
  | null => rfl
  | bool b => cases b <;> rfl
  | int i => simp [precedes]
  | text s =>
    have := (String.instTransOrd : Std.TransCmp String.compare)
    simp [precedes, Std.ReflCmp.compare_self]

end IndexKey

/-- Keys in ascending order with the slots that have them. -/
abbrev Index := List (IndexKey × List Nat)

namespace Index

/-- The slots of a key, in the order they were added. -/
def slotsOf : Index → IndexKey → List Nat
  | [], _ => []
  | (k, slots) :: rest, key => if k = key then slots else slotsOf rest key

/-- Adds a slot at the end of those of a key. -/
def add : Index → IndexKey → Nat → Index
  | [], key, slot => [(key, [slot])]
  | (k, slots) :: rest, key, slot =>
    if k = key then (k, slots ++ [slot]) :: rest
    else if key.precedes k then (key, [slot]) :: (k, slots) :: rest
    else (k, slots) :: add rest key slot

/-- Takes a slot away from those of a key, and the key with its last slot. -/
def drop : Index → IndexKey → Nat → Index
  | [], _, _ => []
  | (k, slots) :: rest, key, slot =>
    if k = key then
      let left := slots.filter (· != slot)
      if left.isEmpty then rest else (k, left) :: rest
    else (k, slots) :: drop rest key slot

/-- The keys in ascending order. -/
def keys (index : Index) : List IndexKey := index.map (·.1)

@[simp] theorem slotsOf_nil (key : IndexKey) : slotsOf [] key = [] := rfl

end Index

end PathQuery
