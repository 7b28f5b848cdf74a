import PathQuery.Value

/-!
# Result/Entity — rows whose fields are shaped by the query

A row starts as a stored document.  Related entities are then embedded in its fields: one or none for a
scalar edge, a list for a collection edge.  An embedded entity is held as the document that it is written
as.  `toDocument (ofDocument d) = d`.
-/

namespace PathQuery

/-- The value of a field of a row. -/
inductive FieldValue where
  /-- A stored value. -/
  | plain (value : Value)
  /-- The entity at the end of a scalar edge, if there is one. -/
  | one (related : Option Document)
  /-- The entities at the ends of a collection edge. -/
  | many (related : List Document)
deriving Repr, Inhabited

/-- A row: its fields in order. -/
abbrev Entity := Fields FieldValue

namespace FieldValue

/-- The written form of a field. -/
def toValue : FieldValue → Value
  | plain v => v
  | one none => .null
  | one (some d) => .object d
  | many ds => .array (ds.map .object)

/-- Whether a field holds an entity at the end of a scalar edge. -/
def isEntity : FieldValue → Bool
  | one (some _) => true
  | _ => false

end FieldValue

namespace Entity

/-- The row of a stored document. -/
def ofDocument (doc : Document) : Entity := doc.mapValues .plain

/-- The document that a row is written as. -/
def toDocument (e : Entity) : Document := e.mapValues FieldValue.toValue

/-- The stored value of a field; an embedded entity is none. -/
def value? (e : Entity) (name : String) : Option Value :=
  match e.get? name with
  | some (.plain v) => some v
  | _ => none

/-- Appends an entity to the list of a collection edge, which replaces anything else in the field. -/
def pushRelated : Entity → String → Document → Entity
  | [], name, related => [(name, .many [related])]
  | (n, v) :: rest, name, related =>
    if n = name then
      match v with
      | .many list => (n, .many (list ++ [related])) :: rest
      | _ => (n, .many [related]) :: rest
    else (n, v) :: pushRelated rest name related

/-- A stored document is written as it is. -/
@[simp] theorem toDocument_ofDocument (doc : Document) : (ofDocument doc).toDocument = doc := by
  simp only [ofDocument, toDocument, Fields.mapValues, List.map_map]
  exact List.map_id doc

/-- The stored values of a row that was just read are the fields of its document. -/
theorem value?_ofDocument (doc : Document) (name : String) :
    (ofDocument doc).value? name = doc.get? name := by
  have h : ∀ fields : List (String × Value),
      Fields.get? (Fields.mapValues FieldValue.plain fields) name =
        (Fields.get? fields name).map .plain := by
    intro fields
    induction fields with
    | nil => rfl
    | cons field rest ih =>
      obtain ⟨n, v⟩ := field
      by_cases hn : n = name
      · subst hn; simp [Fields.mapValues, Fields.get?]
      · simpa [Fields.mapValues, Fields.get?, hn] using ih
  rw [value?, ofDocument, h doc]
  cases doc.get? name <;> rfl

end Entity

end PathQuery
