import PathQuery.Proofs.Result.Find

/-!
# Proofs/Result/Layout — collections that are laid out before members come

A primary key and indexes are declared on an empty collection.  It stays bare, and it tracks the fields
that were declared, except for the empty name.
-/

namespace PathQuery.Collection

/-- A collection that has no members yet. -/
structure Bare (c : Collection) : Prop extends c.WellLaid where
  slots_eq : c.slots = []
  size_eq : c.size = 0
  byKey_eq : c.byKey = []
  indexes_eq : ∀ entry ∈ c.indexes, entry.2 = []

variable {c : Collection}

theorem Bare.valid (h : c.Bare) : c.Valid :=
  h.toWellLaid.valid (by simp [members, h.slots_eq]) h.size_eq h.byKey_eq h.indexes_eq

theorem bare_empty (origin : Option Origin) : (empty origin).Bare :=
  ⟨⟨List.nodup_nil, by simp [empty]⟩, rfl, rfl, rfl, by simp [empty]⟩

theorem indexes_withIndex (c : Collection) (field : String) :
    c.withIndex field = c ∨ (¬ c.Tracks field ∧ field ≠ "" ∧
      c.withIndex field = { c with indexes := c.indexes ++ [(field, [])] }) := by
  rw [withIndex]
  split
  · exact .inl rfl
  · rename_i h
    obtain ⟨he, h⟩ := not_or.mp h
    obtain ⟨hk, hi⟩ := not_or.mp h
    refine .inr ⟨not_or.mpr ⟨hk, fun hm => hi ?_⟩, he, rfl⟩
    obtain ⟨index, hg⟩ := Fields.mem_names_iff.mp hm
    rw [Fields.has, hg]
    rfl

@[simp] theorem origin_withIndex (c : Collection) (field : String) :
    (c.withIndex field).origin = c.origin := by
  rw [withIndex]
  split <;> rfl

@[simp] theorem primaryKey_withIndex (c : Collection) (field : String) :
    (c.withIndex field).primaryKey = c.primaryKey := by
  rw [withIndex]
  split <;> rfl

theorem indexNames_withIndex (c : Collection) (field : String) :
    (c.withIndex field).indexNames =
      if field = "" ∨ c.primaryKey = some field ∨ field ∈ c.indexNames then c.indexNames
      else c.indexNames ++ [field] := by
  have hhas : c.indexes.has field = true ↔ field ∈ c.indexNames := by
    rw [Fields.has, indexNames, Fields.mem_names_iff, Option.isSome_iff_exists]
  simp only [withIndex, hhas]
  split
  · rfl
  · simp [indexNames, Fields.names]

/-- A declared index has no keys yet. -/
theorem mem_indexes_withIndex {field : String} {entry : String × Index}
    (h : entry ∈ (c.withIndex field).indexes) : entry ∈ c.indexes ∨ entry.2 = [] := by
  rcases indexes_withIndex c field with he | ⟨-, -, he⟩
  · exact .inl (he ▸ h)
  · rw [he] at h
    refine (List.mem_append.mp h).imp_right fun h => ?_
    rw [List.mem_singleton.mp h]

theorem WellLaid.withIndex (h : c.WellLaid) (field : String) : (c.withIndex field).WellLaid := by
  rcases indexes_withIndex c field with he | ⟨hnot, -, he⟩
  · exact he.symm ▸ h
  · have hnames : (c.withIndex field).indexNames = c.indexNames ++ [field] := by
      simp [he, Fields.names, indexNames]
    refine ⟨?_, fun f hf => ?_⟩
    · rw [hnames, List.nodup_append]
      refine ⟨h.nodup, List.nodup_singleton _, fun a ha b hb hab => ?_⟩
      rw [List.mem_singleton] at hb
      exact hnot (.inr (hb ▸ hab ▸ ha))
    · rw [primaryKey_withIndex] at hf
      rw [hnames, List.mem_append, List.mem_singleton, not_or]
      exact ⟨h.keyApart f hf, fun hfe => hnot (.inl (hfe ▸ hf))⟩

@[simp] theorem slots_withIndex (c : Collection) (field : String) :
    (c.withIndex field).slots = c.slots := by
  rw [withIndex]
  split <;> rfl

@[simp] theorem size_withIndex (c : Collection) (field : String) :
    (c.withIndex field).size = c.size := by
  rw [withIndex]
  split <;> rfl

@[simp] theorem byKey_withIndex (c : Collection) (field : String) :
    (c.withIndex field).byKey = c.byKey := by
  rw [withIndex]
  split <;> rfl

theorem Bare.withIndex (h : c.Bare) (field : String) : (c.withIndex field).Bare where
  toWellLaid := h.toWellLaid.withIndex field
  slots_eq := (slots_withIndex c field).trans h.slots_eq
  size_eq := (size_withIndex c field).trans h.size_eq
  byKey_eq := (byKey_withIndex c field).trans h.byKey_eq
  indexes_eq entry he := (mem_indexes_withIndex he).elim (h.indexes_eq entry) id

theorem tracks_withIndex (c : Collection) (field other : String) :
    (c.withIndex field).Tracks other ↔ c.Tracks other ∨ other = field ∧ field ≠ "" := by
  rw [withIndex]
  split
  · rename_i h
    refine ⟨.inl, fun ho => ho.elim id fun ⟨ho, hne⟩ => ho ▸ ?_⟩
    rcases h.resolve_left hne with hk | hi
    · exact .inl hk
    · obtain ⟨index, hg⟩ := Option.isSome_iff_exists.mp hi
      exact .inr (Fields.mem_names_iff.mpr ⟨index, hg⟩)
  · rename_i h
    have hne : field ≠ "" := fun he => h (.inl he)
    simp only [Tracks, indexNames, Fields.names, List.map_append, List.mem_append, List.map_cons,
      List.map_nil, List.mem_singleton]
    tauto

/-- Several indexes are declared one after the other. -/
theorem Bare.withIndexes (h : c.Bare) (fields : List String) :
    (fields.foldl Collection.withIndex c).Bare ∧
      (fields.foldl Collection.withIndex c).origin = c.origin ∧
      (fields.foldl Collection.withIndex c).primaryKey = c.primaryKey ∧
      ∀ other, (fields.foldl Collection.withIndex c).Tracks other ↔
        c.Tracks other ∨ other ∈ fields ∧ other ≠ "" := by
  induction fields generalizing c with
  | nil => exact ⟨h, rfl, rfl, by simp⟩
  | cons field rest ih =>
    obtain ⟨hb, ho, hk, ht⟩ := ih (h.withIndex field)
    refine ⟨hb, ho.trans (origin_withIndex c field), hk.trans (primaryKey_withIndex c field),
      fun other => ?_⟩
    rw [List.foldl_cons, ht, tracks_withIndex, List.mem_cons]
    grind

theorem indexNames_withPrimaryKey (c : Collection) {field : String} (h : field ≠ "") :
    (c.withPrimaryKey field).indexNames = c.indexNames.filter (· != field) := by
  rw [withPrimaryKey, if_neg h, indexNames, indexNames, Fields.names, Fields.names, Fields.keep,
    List.filter_map]
  rfl

theorem WellLaid.withPrimaryKey (h : c.WellLaid) (field : String) :
    (c.withPrimaryKey field).WellLaid := by
  by_cases he : field = ""
  · rw [Collection.withPrimaryKey, if_pos he]
    exact h
  · have hnames := indexNames_withPrimaryKey c he
    refine ⟨?_, fun f hf => ?_⟩
    · rw [hnames]
      exact h.nodup.filter _
    · rw [Collection.withPrimaryKey, if_neg he] at hf
      cases hf
      rw [hnames]
      simp

@[simp] theorem slots_withPrimaryKey (c : Collection) (field : String) :
    (c.withPrimaryKey field).slots = c.slots := by
  rw [withPrimaryKey]
  split <;> rfl

@[simp] theorem size_withPrimaryKey (c : Collection) (field : String) :
    (c.withPrimaryKey field).size = c.size := by
  rw [withPrimaryKey]
  split <;> rfl

@[simp] theorem byKey_withPrimaryKey (c : Collection) (field : String) :
    (c.withPrimaryKey field).byKey = c.byKey := by
  rw [withPrimaryKey]
  split <;> rfl

theorem mem_indexes_withPrimaryKey {field : String} {entry : String × Index}
    (h : entry ∈ (c.withPrimaryKey field).indexes) : entry ∈ c.indexes := by
  rw [withPrimaryKey] at h
  split at h
  · exact h
  · exact (List.mem_filter.mp h).1

theorem Bare.withPrimaryKey (h : c.Bare) (field : String) : (c.withPrimaryKey field).Bare where
  toWellLaid := h.toWellLaid.withPrimaryKey field
  slots_eq := (slots_withPrimaryKey c field).trans h.slots_eq
  size_eq := (size_withPrimaryKey c field).trans h.size_eq
  byKey_eq := (byKey_withPrimaryKey c field).trans h.byKey_eq
  indexes_eq entry he := h.indexes_eq entry (mem_indexes_withPrimaryKey he)

end PathQuery.Collection
