import PathQuery.Filter.Scan

/-!
# Filter/Predicate — conditions on a property at the end of a path

A predicate compares the property at the end of a path with a literal.  A path is its hops and its
last segment: `joinPath (splitPath p) = p`.
-/

namespace PathQuery.Filter

/-! ## Operators -/

/-- What a predicate asks of a property. -/
inductive Operator where
  | compare (op : Comparison)
  | command (command : Command)
deriving DecidableEq, Repr

namespace Operator

/-- The spelling of an operator. -/
def word : Operator → String
  | compare op => op.word
  | command c => c.word

/-- Whether the operator is a command on texts. -/
def isCommand : Operator → Bool
  | compare _ => false
  | command _ => true

/-- The operator of a spelling. -/
def ofWord? (w : String) : Option Operator :=
  ((Comparison.ofWord? w).map compare).or ((Command.ofWord? w).map command)

theorem ofWord?_word (op : Operator) : ofWord? op.word = some op := by
  rcases op with op | c
  · cases op <;> decide
  · cases c <;> decide

end Operator

/-! ## Paths -/

/-- A property path: the navigation hops and the field at their end. -/
structure PropertyPath where
  hops : List String
  field : String
deriving DecidableEq, Repr

/-- The parts of a path text between slashes, as hops and a field. -/
def PropertyPath.ofText (path : String) : PropertyPath :=
  let parts := (Text.splitAt '/' path.toList).map String.ofList
  ⟨parts.dropLast, parts.getLastD ""⟩

/-- The text of a path: its segments with slashes between them. -/
def PropertyPath.toText (path : PropertyPath) : String :=
  "/".intercalate (path.hops ++ [path.field])

/-! ## Predicates -/

/-- A condition on a property: its path as written, the operator, and the literal without quotes. -/
structure Predicate where
  property : String
  operator : Operator
  value : String
deriving DecidableEq, Repr

namespace Predicate

/-- The path of the property. -/
def path (p : Predicate) : PropertyPath := .ofText p.property

/-- How messages write a predicate. -/
def describe (p : Predicate) : String := s!"({p.property} {p.operator.word} '{p.value}')"

end Predicate

/-! ## Select lists -/

/-- The property paths of a select list: parts between commas, blank ones left out. -/
def selectList (source : String) : List String :=
  let parts := (Text.splitAt ',' source.toList).map Text.trim
  (parts.filter (!·.isEmpty)).map fun part => String.ofList (decodeSlashes part)

end PathQuery.Filter
