import Mathlib.Data.List.Nodup
import Mathlib.Tactic.Common
import PathQuery.Fields

/-!
# Proofs/Fields — what is found under a name after fields were changed

Fields are read through `get?`.  Where no name repeats, a field is found exactly when it is listed, and
`setAll` lets the new fields win.
-/

namespace PathQuery.Fields

variable {α : Type} {β : Type}

/-! ## Names -/

theorem names_mapValues (f : α → β) (fs : Fields α) : (fs.mapValues f).names = fs.names := by
  simp [mapValues, names, Function.comp_def]

theorem nodup_names_set {fs : Fields α} (h : fs.names.Nodup) (name : String) (v : α) :
    (fs.set name v).names.Nodup := by
  rw [names_set]
  split
  · exact h
  · rename_i hn
    rw [List.nodup_append]
    refine ⟨h, List.nodup_singleton _, fun a ha b hb => ?_⟩
    rw [List.mem_singleton] at hb
    exact fun hab => hn (hb ▸ hab ▸ ha)

theorem nodup_names_setAll {fs : Fields α} (h : fs.names.Nodup) (new : Fields α) :
    (fs.setAll new).names.Nodup := by
  induction new generalizing fs with
  | nil => exact h
  | cons field rest ih => exact ih (nodup_names_set h field.1 field.2)

/-! ## Finding -/

theorem mem_of_get? {fs : Fields α} {name : String} {v : α} (h : fs.get? name = some v) :
    (name, v) ∈ fs := by
  induction fs with
  | nil => obtain ⟨⟩ := h
  | cons field rest ih =>
    obtain ⟨n, w⟩ := field
    rw [get?] at h
    split at h
    · rename_i hn
      cases h
      exact hn ▸ .head _
    · exact .tail _ (ih h)

theorem mem_names_iff {fs : Fields α} {name : String} :
    name ∈ fs.names ↔ ∃ v, fs.get? name = some v := by
  constructor
  · intro h
    induction fs with
    | nil => obtain ⟨⟩ := h
    | cons field rest ih =>
      obtain ⟨n, w⟩ := field
      rw [get?]
      split
      · exact ⟨w, rfl⟩
      · rename_i hn
        exact ih ((List.mem_cons.mp h).resolve_left fun he => hn he.symm)
  · rintro ⟨v, h⟩
    exact List.mem_map_of_mem (f := (·.1)) (mem_of_get? h)

theorem get?_eq_none_iff {fs : Fields α} {name : String} :
    fs.get? name = none ↔ name ∉ fs.names := by
  rw [mem_names_iff, Option.eq_none_iff_forall_ne_some, not_exists]

theorem get?_mapValues (f : α → β) (fs : Fields α) (name : String) :
    (fs.mapValues f).get? name = (fs.get? name).map f := by
  induction fs with
  | nil => rfl
  | cons field rest ih =>
    obtain ⟨n, v⟩ := field
    by_cases hn : n = name
    · simp [mapValues, get?, hn]
    · simpa [mapValues, get?, hn] using ih

theorem get?_keep (fs : Fields α) (test : String → Bool) (name : String) :
    (fs.keep test).get? name = if test name then fs.get? name else none := by
  induction fs with
  | nil => simp [keep, get?]
  | cons field rest ih =>
    obtain ⟨n, v⟩ := field
    rw [keep] at ih ⊢
    rw [List.filter_cons]
    by_cases hn : n = name
    · subst hn
      by_cases ht : test n
      · simp [ht, get?]
      · simp only [ht, if_false, Bool.false_eq_true] at ih ⊢
        exact ih
    · by_cases ht : test n
      · simp only [ht, if_true, get?, if_neg hn]
        exact ih
      · simp only [ht, get?, if_neg hn, Bool.false_eq_true, if_false]
        exact ih

/-- Names that are not written keep their values. -/
theorem get?_setAll_of_notMem (fs : Fields α) {new : Fields α} {name : String}
    (h : name ∉ new.names) : (fs.setAll new).get? name = fs.get? name := by
  induction new generalizing fs with
  | nil => rfl
  | cons field rest ih =>
    rw [names, List.map_cons, List.mem_cons, not_or] at h
    exact (ih (fs.set field.1 field.2) h.2).trans (get?_set_of_ne fs field.2 h.1)

/-- **Written fields win**, where they are written once each. -/
theorem get?_setAll (fs : Fields α) {new : Fields α} (hn : new.names.Nodup) (name : String) :
    (fs.setAll new).get? name = (new.get? name).or (fs.get? name) := by
  induction new generalizing fs with
  | nil => rfl
  | cons field rest ih =>
    obtain ⟨n, v⟩ := field
    rw [names, List.map_cons, List.nodup_cons] at hn
    rw [get?]
    split
    · rename_i he
      subst he
      exact (get?_setAll_of_notMem (fs.set n v) hn.1).trans (get?_set_self fs n v)
    · rename_i he
      refine (ih (fs.set n v) hn.2).trans ?_
      rw [get?_set_of_ne fs v (Ne.symm he)]

/-! ## Appending -/

theorem get?_append_of_notMem {fs new : Fields α} {name : String} (h : name ∉ new.names) :
    Fields.get? (fs ++ new) name = fs.get? name := by
  induction fs with
  | nil => exact get?_eq_none_iff.mpr h
  | cons field rest ih =>
    obtain ⟨n, v⟩ := field
    rw [List.cons_append, get?, get?, ih]

theorem set_of_notMem {fs : Fields α} {name : String} (h : name ∉ fs.names) (v : α) :
    fs.set name v = fs ++ [(name, v)] := by
  induction fs with
  | nil => rfl
  | cons field rest ih =>
    obtain ⟨n, w⟩ := field
    obtain ⟨hne, hrest⟩ := not_or.mp fun hm => h (List.mem_cons.mpr hm)
    rw [set, if_neg (Ne.symm hne), ih hrest, List.cons_append]

/-- New fields come to the end. -/
theorem setAll_of_disjoint {fs new : Fields α} (hn : new.names.Nodup) (hd : fs.names.Disjoint new.names) :
    fs.setAll new = fs ++ new := by
  induction new generalizing fs with
  | nil => exact (List.append_nil fs).symm
  | cons field rest ih =>
    obtain ⟨n, v⟩ := field
    obtain ⟨hnot, hrest⟩ := List.nodup_cons.mp hn
    obtain ⟨hfs, hdr⟩ := List.disjoint_cons_right.mp hd
    have hd' : (fs ++ [(n, v)]).names.Disjoint (names rest) := by
      rw [names, List.map_append, List.disjoint_append_left]
      exact ⟨hdr, List.singleton_disjoint.mpr hnot⟩
    rw [setAll, List.foldl_cons, set_of_notMem hfs]
    exact (ih hrest hd').trans (List.append_assoc _ _ _)

end PathQuery.Fields
