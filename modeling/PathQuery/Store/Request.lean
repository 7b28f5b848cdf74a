import PathQuery.Store.Literal
import PathQuery.Store.Match

/-!
# Store/Request — what to fetch from which resource

A request names a resource, the entity type of its documents, a restriction and the selected fields.  A
predicate becomes a condition through the declared data type of its field.
-/

namespace PathQuery

open PathQuery.Filter (Operator)

/-- What to fetch. -/
structure Request where
  resource : String
  entity : EntityType
  restriction : Restriction
  /-- The selected fields in alphabetical order. -/
  selected : List String
deriving Repr

namespace Request

/-- Everything of a resource. -/
def ofResource (resource : String) (entity : EntityType) : Request :=
  ⟨resource, entity, .none, []⟩

/-- Everything of the resource of an entity type. -/
def ofEntity (entity : EntityType) : Request := ofResource entity.resource entity

/-- Adds a selected field. -/
def select (r : Request) (field : String) : Request :=
  { r with selected := Names.insert field r.selected }

/-- Adds a condition with an operand as it is. -/
def addCondition (r : Request) (field : String) (c : Condition) : Except Failure Request :=
  (r.restriction.insert field c).map fun restriction => { r with restriction }

/-- The condition that an operator and a literal are for a field. -/
def conditionOf (r : Request) (field : String) (op : Operator) (literal : String) :
    Except Failure Condition := do
  let name ← r.entity.dataTypeName field
  match DataType.ofName? name with
  | none => .error (.predicate (.unknownType name field r.entity.name))
  | some type =>
    match op with
    | .command c =>
      if type = .text then .ok (.text c literal)
      else .error (.predicate (.needsText op.word field name))
    | .compare c => return .compare c (← type.coerce field literal)

/-- Adds a predicate on a declared field. -/
def addPredicate (r : Request) (field : String) (op : Operator) (literal : String) :
    Except Failure Request := do
  r.addCondition field (← r.conditionOf field op literal)

/-- Restricts a field to the values that another entity has. -/
def restrictTo (r : Request) (field : String) (values : List Value) : Request :=
  { r with restriction := r.restriction.restrictTo field values }

end Request

end PathQuery
