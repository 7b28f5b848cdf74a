/-!
# Names — sets of names in alphabetical order

A set of names is a list without repetitions in ascending order of code points.  Inserting a name
keeps this form, and a name is in the result exactly when it is the new name or was there before.
-/

namespace PathQuery.Names

/-- Puts a name in its place, unless it is there already. -/
def insert (name : String) : List String → List String
  | [] => [name]
  | first :: rest =>
    if name = first then first :: rest
    else if (String.compare name first).isLT then name :: first :: rest
    else first :: insert name rest

/-- The set of the names in a list. -/
def ofList (names : List String) : List String := names.foldl (fun set name => insert name set) []

/-- The members after an insertion. -/
theorem mem_insert {name other : String} {names : List String} :
    other ∈ insert name names ↔ other = name ∨ other ∈ names := by
  induction names with
  | nil => simp [insert]
  | cons first rest ih =>
    simp only [insert]
    split
    · rename_i h; subst h; simp
    · split
      · simp
      · simp only [List.mem_cons, ih]
        constructor
        · rintro (h | h | h) <;> simp [h]
        · rintro (h | h | h) <;> simp [h]

/-- The members of the set of a list. -/
theorem mem_ofList {name : String} {names : List String} : name ∈ ofList names ↔ name ∈ names := by
  suffices h : ∀ set, name ∈ names.foldl (fun set name => insert name set) set ↔
      name ∈ names ∨ name ∈ set by simpa [ofList] using h []
  induction names with
  | nil => simp
  | cons first rest ih =>
    intro set
    simp only [List.foldl_cons, ih, mem_insert, List.mem_cons]
    constructor
    · rintro (h | h | h) <;> simp [h]
    · rintro ((h | h) | h) <;> simp [h]

end PathQuery.Names
