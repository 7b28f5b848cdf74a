import PathQuery.Metadata.EntityType
import PathQuery.Time.Literal

/-!
# Store/Literal — the value that a literal has under a data type

An integer is an optional sign and digits within a signed word.  A float is a decimal numeral, read to
the nearest double.  A boolean is `true` or `false` in any case of ASCII letters.  A text is itself, and
a point in time is written in UTC.
-/

namespace PathQuery.DataType

/-- The name of a data type in messages about literals. -/
def literalName : DataType → String
  | integer => "integer"
  | float => "float"
  | boolean => "boolean"
  | text => "string"
  | dateTime => "datetime"

/-- An optional sign and at least one digit, as an integer of a signed word. -/
def integerOf? (cs : List Char) : Option Int := do
  let (negative, ds) := match cs with
    | '-' :: rest => (true, rest)
    | '+' :: rest => (false, rest)
    | rest => (false, rest)
  if ds.isEmpty ∨ !ds.all Char.isDigit then none
  let n : Int := Numeral.natOfDigits ds
  let i := if negative then -n else n
  if leastWord ≤ i ∧ i ≤ greatestWord then some i else none

/-- The value of a literal, if it is one of the type. -/
def valueOf? (type : DataType) (raw : String) : Option Value :=
  match type with
  | integer => (integerOf? raw.toList).map .int
  | float => do
    let n ← Numeral.ofLiteral? raw.toList
    return .number (.real (← n.nearest))
  | boolean =>
    match raw.toLower with
    | "true" => some (.bool true)
    | "false" => some (.bool false)
    | _ => none
  | text => some (.string raw)
  | dateTime => (Time.ofLiteral? raw).map fun t => .string t.toText

/-- The value of a literal for a field. -/
def coerce (type : DataType) (field raw : String) : Except Failure Value :=
  match type.valueOf? raw with
  | some v => .ok v
  | none => .error (.predicate (.badLiteral type.literalName raw field))

end PathQuery.DataType
