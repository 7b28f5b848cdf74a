/-!
# Fields — named values in the order of their first appearance

The fields of a document keep their order: a new name is appended and a repeated name keeps its
place.  `get? (set fs n v) n = some v`, and the names of `set fs n v` are those of `fs`, with `n`
at the end if it is new.
-/

namespace PathQuery

/-- Named values in order. -/
abbrev Fields (α : Type u) := List (String × α)

namespace Fields

variable {α : Type u} {β : Type v}

/-- The value of a name, the first of that name. -/
def get? : Fields α → String → Option α
  | [], _ => none
  | (name, value) :: rest, wanted => if name = wanted then some value else get? rest wanted

/-- Replaces the value of a name in its place, or appends a new name. -/
def set : Fields α → String → α → Fields α
  | [], wanted, v => [(wanted, v)]
  | (name, value) :: rest, wanted, v =>
    if name = wanted then (name, v) :: rest else (name, value) :: set rest wanted v

/-- The names in order. -/
def names (fs : Fields α) : List String := fs.map (·.1)

/-- Whether a name is present. -/
def has (fs : Fields α) (name : String) : Bool := (fs.get? name).isSome

/-- Applies a function to every value. -/
def mapValues (f : α → β) (fs : Fields α) : Fields β := fs.map fun (name, value) => (name, f value)

/-- Keeps the fields whose name passes a test. -/
def keep (fs : Fields α) (test : String → Bool) : Fields α := fs.filter fun field => test field.1

/-- Writes several fields one after the other. -/
def setAll (fs : Fields α) (new : Fields α) : Fields α :=
  new.foldl (fun acc field => acc.set field.1 field.2) fs

/-- The fields of a list of pairs, the last value of a repeated name winning. -/
def ofPairs (pairs : List (String × α)) : Fields α := setAll [] pairs

@[simp] theorem get?_nil (name : String) : get? ([] : Fields α) name = none := rfl

/-- A field that was set is found with its value. -/
@[simp] theorem get?_set_self (fs : Fields α) (name : String) (v : α) :
    (fs.set name v).get? name = some v := by
  fun_induction set fs name v <;> simp_all [get?]

/-- Setting one field leaves the others alone. -/
theorem get?_set_of_ne (fs : Fields α) {name other : String} (v : α) (h : other ≠ name) :
    (fs.set name v).get? other = fs.get? other := by
  induction fs with
  | nil => simp [set, get?, h.symm]
  | cons field rest ih =>
    obtain ⟨n, w⟩ := field
    by_cases hn : n = name
    · subst hn; simp [set, get?, h.symm]
    · simp only [set, hn, if_false, get?, ih]

theorem get?_set (fs : Fields α) (name other : String) (v : α) :
    (fs.set name v).get? other = if other = name then some v else fs.get? other := by
  by_cases h : other = name
  · subst h; simp
  · simp [h, get?_set_of_ne fs v h]

/-- Setting a field appends its name if it is new and keeps the names otherwise. -/
theorem names_set (fs : Fields α) (name : String) (v : α) :
    (fs.set name v).names = if name ∈ fs.names then fs.names else fs.names ++ [name] := by
  induction fs with
  | nil => simp [set, names]
  | cons field rest ih =>
    obtain ⟨n, w⟩ := field
    simp only [names] at ih
    by_cases hn : n = name
    · simp [set, names, hn]
    · have hn' : name ≠ n := fun h => hn h.symm
      simp only [set, hn, if_false, names, List.map_cons, List.mem_cons, hn', false_or, ih]
      split <;> simp_all

end Fields

end PathQuery
