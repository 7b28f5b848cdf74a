import PathQuery.Failure
import PathQuery.Names
import PathQuery.Value.Printer

/-!
# Store/Condition — conditions on the fields of a document, and their conjunction

A condition compares a field with an operand, asks for one of some values, or looks for a text.  A
restriction is the list of conditions that a document must satisfy, in the order in which they came.
`insert` refuses a condition that cannot stand beside the others of its field: an equality stands
alone, and each operator comes once.  `restrictTo` adds a list of values on top of what is there.
-/

namespace PathQuery

open PathQuery.Filter (Comparison Command)

/-- A condition on one field. -/
inductive Condition where
  | compare (op : Comparison) (operand : Value)
  /-- The field has one of some values. -/
  | oneOf (values : List Value)
  /-- The field is a text in which a text stands, whatever the case. -/
  | text (command : Command) (needle : String)
deriving Repr, Inhabited

namespace Condition

/-- The name of a condition in written restrictions. -/
def operatorName : Condition → String
  | compare .eq _ => "$eq"
  | compare .ne _ => "$ne"
  | compare .gt _ => "$gt"
  | compare .ge _ => "$gte"
  | compare .lt _ => "$lt"
  | compare .le _ => "$lte"
  | oneOf _ => "$in"
  | text .substringOf _ => "$contains"
  | text .startsWith _ => "$startsWith"
  | text .endsWith _ => "$endsWith"

/-- The operand of a condition as a value. -/
def operand : Condition → Value
  | compare _ v => v
  | oneOf values => .array values
  | text _ needle => .string needle

/-- Whether a condition is an equality. -/
def isEquality : Condition → Bool
  | compare .eq _ => true
  | _ => false

/-- Whether two conditions cannot both be inserted for one field. -/
def conflicts (a b : Condition) : Bool :=
  a.isEquality || b.isEquality || a.operatorName == b.operatorName

/-- Conflict does not depend on the order of the two. -/
theorem conflicts_comm (a b : Condition) : a.conflicts b = b.conflicts a := by
  rw [conflicts, conflicts, Bool.or_comm a.isEquality, BEq.comm (a := a.operatorName)]

end Condition

/-- The conditions that a document must satisfy, each with its field, in the order they came. -/
structure Restriction where
  conditions : List (String × Condition)
deriving Repr, Inhabited

namespace Restriction

/-- No condition at all. -/
def none : Restriction := ⟨[]⟩

/-- The conditions on one field. -/
def on (r : Restriction) (field : String) : List Condition :=
  (r.conditions.filter (·.1 == field)).map (·.2)

/-- Whether there is no condition. -/
def isEmpty (r : Restriction) : Bool := r.conditions.isEmpty

/-- Adds a condition whatever is there. -/
def push (r : Restriction) (field : String) (c : Condition) : Restriction :=
  ⟨r.conditions ++ [(field, c)]⟩

/-- Adds a condition that conflicts with none on its field. -/
def insert (r : Restriction) (field : String) (c : Condition) : Except Failure Restriction :=
  if (r.on field).any (·.conflicts c) then
    .error (.predicate (.conflict field c.operatorName ((r.on field).map Condition.operatorName)))
  else .ok (r.push field c)

/-- Restricts a field to some values, on top of the conditions it has. -/
def restrictTo (r : Restriction) (field : String) (values : List Value) : Restriction :=
  r.push field (.oneOf values)

/-- The fields that have conditions, in alphabetical order. -/
def fields (r : Restriction) : List String := Names.ofList (r.conditions.map (·.1))

/-- The conditions by field, in alphabetical order of the fields. -/
def clauses (r : Restriction) : List (String × List Condition) :=
  r.fields.map fun field => (field, r.on field)

/-- The written form of the conditions on a field: the operand of a single equality, or an object
from operators to operands. -/
def writtenClause : List Condition → Value
  | [.compare .eq v] => v
  | conditions => .object (Fields.ofPairs (conditions.map fun c => (c.operatorName, c.operand)))

/-- The written form of a restriction. -/
def toValue (r : Restriction) : Value :=
  .object (r.clauses.map fun (field, conditions) => (field, writtenClause conditions))

/-- The text of a restriction. -/
def describe (r : Restriction) : String := r.toValue.print

/-- The conditions on a field after one more was added. -/
theorem on_push (r : Restriction) (field other : String) (c : Condition) :
    (r.push field c).on other = r.on other ++ if field = other then [c] else [] := by
  simp only [on, push, List.filter_append, List.map_append, List.filter_cons, List.filter_nil]
  split <;> simp_all

/-- An inserted condition is appended. -/
theorem insert_eq_ok_iff {r s : Restriction} {field : String} {c : Condition} :
    r.insert field c = .ok s ↔ (∀ d ∈ r.on field, d.conflicts c = false) ∧ s = r.push field c := by
  unfold insert
  split
  · rename_i h
    constructor
    · intro h'; cases h'
    · rintro ⟨h', -⟩
      obtain ⟨d, hd, hc⟩ := List.any_eq_true.1 h
      rw [h' d hd] at hc; cases hc
  · rename_i h
    constructor
    · intro h'
      cases h'
      refine ⟨fun d hd => ?_, rfl⟩
      cases hc : d.conflicts c with
      | false => rfl
      | true => exact absurd (List.any_eq_true.2 ⟨d, hd, hc⟩) h
    · rintro ⟨-, rfl⟩; rfl

end Restriction

end PathQuery
