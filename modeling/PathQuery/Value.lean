import PathQuery.Number
import PathQuery.Fields

/-!
# Value — the values of a document

A value is null, a boolean, a number, a text, an array or an object, and a document is the fields
of an object.  `agrees` is sameness of values: fields agree whatever their order, and an integer
never agrees with a double.
-/

namespace PathQuery

/-- A value of a document. -/
inductive Value where
  | null
  | bool (value : Bool)
  | number (value : Number)
  | string (text : String)
  | array (items : List Value)
  | object (fields : List (String × Value))
deriving Repr, Inhabited

/-- A document: the fields of an object. -/
abbrev Document := Fields Value

namespace Value

/-- An integer value. -/
def int (i : Int) : Value := .number (.int i)

/-- A natural number as a value. -/
def nat (n : Nat) : Value := .int n

/-- The text of a value that is one. -/
def string? : Value → Option String
  | .string s => some s
  | _ => none

/-- The fields of a value that is an object. -/
def object? : Value → Option Document
  | .object fields => some fields
  | _ => none

/-- The items of a value that is an array. -/
def array? : Value → Option (List Value)
  | .array items => some items
  | _ => none

/-- The boolean of a value that is one. -/
def bool? : Value → Option Bool
  | .bool b => some b
  | _ => none

/-- Whether the value is null. -/
def isNull : Value → Bool
  | .null => true
  | _ => false

/-- An optional value, null where there is none. -/
def ofOption (v : Option Value) : Value := v.getD .null

/-- An optional text, null where there is none. -/
def ofText? (s : Option String) : Value := ofOption (s.map .string)

/-- An array of texts. -/
def texts (ss : List String) : Value := .array (ss.map .string)

/-! ## Sameness -/

mutual

/-- Whether two values are the same, objects whatever the order of their fields. -/
def agrees : Value → Value → Bool
  | .null, .null => true
  | .bool a, .bool b => a == b
  | .number a, .number b => a.agrees b
  | .string a, .string b => a == b
  | .array as, .array bs => itemsAgree as bs
  | .object fs, .object gs => fs.length == gs.length && fieldsAgree fs gs
  | _, _ => false

/-- Whether two arrays have the same items in the same places. -/
def itemsAgree : List Value → List Value → Bool
  | [], [] => true
  | a :: as, b :: bs => agrees a b && itemsAgree as bs
  | _, _ => false

/-- Whether each of some fields has a field of the same name and value among others. -/
def fieldsAgree : List (String × Value) → List (String × Value) → Bool
  | [], _ => true
  | (name, v) :: rest, gs =>
    (match Fields.get? gs name with
      | some w => agrees v w
      | none => false) && fieldsAgree rest gs

end

/-! ## Repeated names -/

mutual

/-- The value with repeated names in objects merged: the last value of a name wins and stands in the
place of the first. -/
def merged : Value → Value
  | .array items => .array (mergedItems items)
  | .object fields => .object (Fields.ofPairs (mergedFields fields))
  | v => v

/-- `merged` on the items of an array. -/
def mergedItems : List Value → List Value
  | [] => []
  | v :: rest => merged v :: mergedItems rest

/-- `merged` on the values of fields. -/
def mergedFields : List (String × Value) → List (String × Value)
  | [] => []
  | (name, v) :: rest => (name, merged v) :: mergedFields rest

end

end Value

end PathQuery
