import PathQuery.Text.Shown
import PathQuery.Value.Printer

/-!
# Value/Refusal — why a value is not the record that it should be

A refusal is a cause, and a fault is a refusal with the way to the part that is refused: names of fields
and positions of items, from the outside in.
-/

namespace PathQuery.Value

/-- Why a value is refused. -/
inductive Refusal where
  /-- The value is of another type than the expected one. -/
  | wrongType (found : Value) (expected : String)
  | negative (value : Int) (expected : String)
  | missingField (name : String)
  | repeatedField (name : String)
  /-- An array ends before a field that it must have. -/
  | tooShort (record : String) (declared length : Nat)
  /-- An array has more items than there are fields. -/
  | tooLong (length : Nat)
  /-- None of the ways in which a value may be written fits. -/
  | noVariant (name : String)
deriving Repr

/-- How messages name a value that was not expected. -/
def nameOf : Value → String
  | .null => "null"
  | .bool b => s!"boolean `{b}`"
  | .number (.int i) => s!"integer `{i}`"
  | .number (.real x) => s!"floating point `{x.toText}`"
  | .string s => s!"string {Text.shown s}"
  | .array _ => "sequence"
  | .object _ => "map"

/-- The words of a refusal. -/
def Refusal.describe : Refusal → String
  | wrongType found expected => s!"invalid type: {found.nameOf}, expected {expected}"
  | negative value expected => s!"invalid value: integer `{value}`, expected {expected}"
  | missingField name => s!"missing field `{name}`"
  | repeatedField name => s!"duplicate field `{name}`"
  | tooShort record declared length =>
    let elements := if declared = 1 then "element" else "elements"
    s!"invalid length {length}, expected struct {record} with {declared} {elements}"
  | tooLong length => s!"invalid length {length}, expected fewer elements in array"
  | noVariant name => s!"data did not match any variant of untagged enum {name}"

/-- One step into a value. -/
inductive Step where
  | field (name : String)
  | item (position : Nat)
deriving DecidableEq, Repr

/-- A refusal, and the way to the part that is refused. -/
structure Fault where
  trail : List Step
  refusal : Refusal
deriving Repr

/-- A fault of a part as a fault of the whole. -/
def Fault.within (step : Step) (f : Fault) : Fault := { f with trail := step :: f.trail }

/-- What a value has in it, or why it has not. -/
abbrev Decoded (α : Type) := Except Fault α

/-- The refusal of a whole value. -/
def refuse (r : Refusal) : Decoded α := .error ⟨[], r⟩

end PathQuery.Value
