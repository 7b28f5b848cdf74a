import PathQuery.Proofs.Except
import PathQuery.Proofs.Result.Update

/-!
# Proofs/Result/Find — what is found by a key is what a scan finds

In a collection whose parts agree, `membersBy` is a filter of the members, and the distinct values of a
field are the keys that its members have there.
-/

namespace PathQuery.Collection

/-! ## Finding members -/

variable {c : Collection} {field : String} {key : IndexKey}

theorem tracks_of_slotsBy {slots : List Nat} (h : c.slotsBy field key = .ok slots) :
    c.Tracks field := by
  rw [slotsBy] at h
  split at h
  · exact .inl ‹_›
  · split at h
    · exact .inr (Fields.mem_names_iff.mpr ⟨_, ‹_›⟩)
    · obtain ⟨⟩ := h

/-- A primary key is found in the slot that a scan finds, if any. -/
theorem Valid.slotsWith_primary (h : c.Valid) (hp : c.primaryKey = some field) (key : IndexKey) :
    c.slotsWith field key = (c.slotOfKey? key).toList := by
  have hmem := h.primary field hp key
  cases hs : c.slotOfKey? key with
  | none =>
    refine List.eq_nil_iff_forall_not_mem.mpr fun slot hm => ?_
    obtain ⟨⟩ := hs.symm.trans ((hmem slot).mpr hm)
  | some slot =>
    refine List.perm_singleton.mp ?_
    refine (List.perm_ext_iff_of_nodup (nodup_slotsWith c field key) (List.nodup_singleton _)).mpr ?_
    intro s
    rw [← hmem, hs, List.mem_singleton, Option.some.injEq, eq_comm]

/-- **A key finds the slots that a scan finds.** -/
theorem Valid.slotsBy_eq (h : c.Valid) (hf : c.Tracks field) (key : IndexKey) :
    c.slotsBy field key = .ok (c.slotsWith field key) := by
  rw [slotsBy]
  split
  · rename_i hp
    rw [h.slotsWith_primary hp]
  · rename_i hp
    have hname := hf.resolve_left hp
    obtain ⟨index, hi⟩ := Fields.mem_names_iff.mp hname
    simp only [hi]
    rw [← h.indexed _ (Fields.mem_of_get? hi)]

/-- **A key finds the members that have it.** -/
theorem Valid.membersBy_eq (h : c.Valid) (hf : c.Tracks field) (key : IndexKey) :
    c.membersBy field key = .ok (c.members.filter (·.entity.hasKey field key)) := by
  rw [membersBy, h.slotsBy_eq hf, ← filterMap_slotsWith]
  rfl

theorem tracks_of_membersBy {ms : List Member} (h : c.membersBy field key = .ok ms) :
    c.Tracks field := by
  rw [membersBy, map_eq_ok] at h
  obtain ⟨slots, hs, -⟩ := h
  exact tracks_of_slotsBy hs

theorem Valid.eq_of_membersBy (h : c.Valid) {ms : List Member}
    (hm : c.membersBy field key = .ok ms) :
    c.Tracks field ∧ ms = c.members.filter (·.entity.hasKey field key) := by
  have hf := tracks_of_membersBy hm
  rw [h.membersBy_eq hf] at hm
  exact ⟨hf, (Except.ok.inj hm).symm⟩

/-! ## Distinct values -/

theorem mem_keysOf {rows : List Entity} {keys : List IndexKey}
    (h : keysOf field rows = .ok keys) :
    key ∈ keys ↔ ∃ e ∈ rows, e.keyOf field = .ok key := by
  induction rows generalizing keys with
  | nil => cases h; simp
  | cons e rest ih =>
    rw [keysOf] at h
    cases hk : e.keyOf field with
    | error f => rw [hk] at h; obtain ⟨⟩ := h
    | ok k =>
      simp only [hk, map_eq_ok] at h
      obtain ⟨keys', hr, rfl⟩ := h
      rw [List.mem_cons, ih hr]
      simp [hk, eq_comm]

theorem exists_keysOf {rows : List Entity} (h : ∀ e ∈ rows, e.IsKeyed field) :
    ∃ keys, keysOf field rows = .ok keys := by
  induction rows with
  | nil => exact ⟨[], rfl⟩
  | cons e rest ih =>
    obtain ⟨k, hk⟩ := h e (.head _)
    obtain ⟨keys, hr⟩ := ih fun e' he => h e' (.tail _ he)
    exact ⟨k :: keys, by simp only [keysOf, hk, hr]; rfl⟩

theorem mem_firstOccurrences {seen keys : List IndexKey} :
    key ∈ firstOccurrences seen keys ↔ key ∈ keys ∧ key ∉ seen := by
  induction keys generalizing seen with
  | nil => simp [firstOccurrences]
  | cons k rest ih =>
    rw [firstOccurrences]
    split
    · rename_i hk
      rw [ih, List.mem_cons]
      have hk' : k ∈ seen := List.contains_iff_mem.mp hk
      constructor
      · exact fun ⟨hr, hs⟩ => ⟨.inr hr, hs⟩
      · rintro ⟨rfl | hr, hs⟩
        · exact absurd hk' hs
        · exact ⟨hr, hs⟩
    · rename_i hk
      have hk' : k ∉ seen := fun hm => hk (List.contains_iff_mem.mpr hm)
      rw [List.mem_cons, ih, List.mem_cons, List.mem_cons]
      by_cases hkey : key = k
      · subst hkey
        simp [hk']
      · simp [hkey]

theorem exists_mem_rows : (∃ e ∈ c.rows, e.keyOf field = .ok key) ↔
    ∃ m ∈ c.members, m.entity.keyOf field = .ok key := by
  simp [rows]

theorem exists_mem_slotsWith : c.slotsWith field key ≠ [] ↔
    ∃ m ∈ c.members, m.entity.keyOf field = .ok key := by
  constructor
  · intro hne
    obtain ⟨slot, hs⟩ := List.exists_mem_of_ne_nil _ hne
    obtain ⟨m, hm, hk⟩ := mem_slotsWith.mp hs
    exact ⟨m, mem_members_iff.mpr ⟨slot, hm⟩, hk⟩
  · rintro ⟨m, hm, hk⟩
    obtain ⟨slot, hs⟩ := mem_members_iff.mp hm
    exact List.ne_nil_of_mem (mem_slotsWith.mpr ⟨m, hs, hk⟩)

theorem Valid.mem_distinctKeys (h : c.Valid) {keys : List IndexKey}
    (hk : c.distinctKeys field = .ok keys) :
    key ∈ keys ↔ ∃ m ∈ c.members, m.entity.keyOf field = .ok key := by
  rw [distinctKeys] at hk
  split at hk
  · rw [mem_keysOf hk, exists_mem_rows]
  · split at hk
    · rename_i index hi
      cases hk
      have hmem := Fields.mem_of_get? hi
      rw [(h.sorted _ hmem).mem_keys_iff, h.indexed _ hmem, exists_mem_slotsWith]
    · obtain ⟨found, hf, rfl⟩ := map_eq_ok.mp hk
      rw [mem_firstOccurrences, mem_keysOf hf, exists_mem_rows]
      simp

/-- **The distinct values of a field** are the keys that members have there. -/
theorem Valid.mem_distinctValues (h : c.Valid) {values : List Value}
    (hv : c.distinctValues field = .ok values) {v : Value} :
    v ∈ values ↔ ∃ m ∈ c.members, ∃ key, m.entity.keyOf field = .ok key ∧ v = key.toValue := by
  rw [distinctValues, map_eq_ok] at hv
  obtain ⟨keys, hk, rfl⟩ := hv
  simp only [List.mem_map, h.mem_distinctKeys hk]
  grind

/-- A field has distinct values if every member has a key there. -/
theorem exists_distinctValues (h : ∀ m ∈ c.members, m.entity.IsKeyed field) :
    ∃ values, c.distinctValues field = .ok values := by
  have hrows : ∀ e ∈ c.rows, e.IsKeyed field := by
    intro e he
    obtain ⟨m, hm, rfl⟩ := List.mem_map.mp he
    exact h m hm
  obtain ⟨keys, hk⟩ := exists_keysOf hrows
  rw [distinctValues, distinctKeys]
  split
  · exact ⟨_, by rw [hk]; rfl⟩
  · split
    · exact ⟨_, rfl⟩
    · exact ⟨_, by rw [hk]; rfl⟩

end PathQuery.Collection
