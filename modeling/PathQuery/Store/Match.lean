import PathQuery.Store.Condition
import PathQuery.Text.LowerCase

/-!
# Store/Match — whether a document satisfies a restriction

A field is looked up by its whole name first and then by the dots in it, into nested objects.  Numbers
compare by value, also an integer with a double; texts compare by code points; a text is looked for
without regard to case.  A missing field satisfies inequality only.
-/

namespace PathQuery

open PathQuery.Filter (Comparison Command)

namespace Value

/-- The order of two numbers, two texts or two booleans. -/
def order? : Value → Value → Option Ordering
  | .number a, .number b => some (a.compare b)
  | .string a, .string b => some (String.compare a b)
  | .bool a, .bool b => some (compare a b)
  | _, _ => none

/-- Whether two values are equal: numbers by value, all else by sameness. -/
def equals : Value → Value → Bool
  | .number a, .number b => a.compare b == .eq
  | a, b => a.agrees b

/-- The value at the end of some names, through nested objects. -/
def descend : Value → List String → Option Value
  | v, [] => some v
  | .object fields, name :: rest => (Fields.get? fields name).bind (descend · rest)
  | _, _ :: _ => none

end Value

/-- The value of a field of a document: by its whole name, or else by the parts between its dots. -/
def Document.lookup (doc : Document) (path : String) : Option Value :=
  match doc.get? path with
  | some v => some v
  | none => (Value.object doc).descend ((Text.splitAt '.' path.toList).map String.ofList)

namespace Condition

/-- Whether an order between a field and an operand is what a comparison asks for. -/
def holdsFor : Comparison → Ordering → Bool
  | .gt, o => o.isGT
  | .ge, o => o.isGE
  | .lt, o => o.isLT
  | .le, o => o.isLE
  | .eq, o => o.isEq
  | .ne, o => o.isNe

/-- Whether a text has another as its part, start or end. -/
def finds (command : Command) (text needle : List Char) : Bool :=
  match command with
  | .substringOf => Text.occursIn needle text
  | .startsWith => needle.isPrefixOf text
  | .endsWith => needle.isSuffixOf text

/-- Whether a value satisfies a condition. -/
def holds (c : Condition) (v : Value) : Bool :=
  match c with
  | compare .eq operand => v.equals operand
  | compare .ne operand => !v.equals operand
  | compare op operand => (v.order? operand).any (holdsFor op)
  | oneOf values => values.any v.equals
  | text command needle =>
    match v with
    | .string s => finds command (Text.lowerCase s.toList) (Text.lowerCase needle.toList)
    | _ => false

/-- Whether a field, which may be missing, satisfies a condition. -/
def holdsAt (c : Condition) (v : Option Value) : Bool :=
  match v, c with
  | some v, c => c.holds v
  | none, compare .ne _ => true
  | none, _ => false

end Condition

/-- Whether a document satisfies every condition. -/
def Restriction.admits (r : Restriction) (doc : Document) : Bool :=
  r.conditions.all fun (field, c) => c.holdsAt (doc.lookup field)

/-- A document satisfies a further condition exactly when its field does. -/
theorem Restriction.admits_push (r : Restriction) (field : String) (c : Condition)
    (doc : Document) :
    (r.push field c).admits doc = (r.admits doc && c.holdsAt (doc.lookup field)) := by
  simp [admits, push]

end PathQuery
