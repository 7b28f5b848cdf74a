import Mathlib.Data.List.Forall2
import Mathlib.Data.List.Induction
import Mathlib.Data.List.Nodup
import Mathlib.Tactic.Common
import PathQuery.Proofs.Fields
import PathQuery.Proofs.Result.Index
import PathQuery.Result.Collection

/-!
# Proofs/Result/Collection — a collection is its list of members

The slots, the count, the primary keys and the indexes of a collection say the same thing several
times.  `Collection.Valid` is their agreement: a key finds exactly the slots whose member has it, as a
scan would (`slotsWith`).  Adding, removing and purging keep it, and what they do is told by `members`
alone: `add_cases`, `exists_remove`, `membersBy`, `mem_distinctValues`.
-/

namespace PathQuery

/-! ## Keys of rows -/

namespace Entity

/-- Whether a field of a row has a key. -/
def hasKey (e : Entity) (field : String) (key : IndexKey) : Bool :=
  match e.keyOf field with
  | .ok k => k == key
  | .error _ => false

/-- A row whose field has some key. -/
def IsKeyed (e : Entity) (field : String) : Prop := ∃ key, e.keyOf field = .ok key

theorem hasKey_iff {e : Entity} {field : String} {key : IndexKey} :
    e.hasKey field key = true ↔ e.keyOf field = .ok key := by
  unfold hasKey
  cases e.keyOf field <;> simp

/-- A field has the key that is read there and no other. -/
theorem hasKey_of_keyOf {e : Entity} {field : String} {k : IndexKey} (h : e.keyOf field = .ok k)
    (key : IndexKey) : e.hasKey field key = (k == key) := by
  rw [hasKey, h]

end Entity

namespace Collection

/-! ## Members by slot -/

/-- The members are what stands in the slots, in their order. -/
theorem filterMap_id_eq_range {α : Type} (l : List (Option α)) :
    l.filterMap id = (List.range l.length).filterMap fun s => (l[s]?).join := by
  induction l using List.reverseRecOn with
  | nil => rfl
  | append_singleton l x ih =>
    rw [List.filterMap_append, ih, List.length_append, List.length_singleton, List.range_succ,
      List.filterMap_append]
    congr 1
    · refine List.filterMap_congr fun s hs => ?_
      rw [List.getElem?_append_left (List.mem_range.mp hs)]
    · cases x <;> simp

theorem members_eq (c : Collection) :
    c.members = (List.range c.slots.length).filterMap c.member? :=
  filterMap_id_eq_range c.slots

theorem lt_length_of_member? {c : Collection} {slot : Nat} {m : Member}
    (h : c.member? slot = some m) : slot < c.slots.length := by
  by_contra hn
  rw [member?, List.getElem?_eq_none (Nat.le_of_not_lt hn)] at h
  obtain ⟨⟩ := h

theorem mem_members_iff {c : Collection} {m : Member} :
    m ∈ c.members ↔ ∃ slot, c.member? slot = some m := by
  rw [members_eq, List.mem_filterMap]
  refine ⟨fun ⟨s, _, h⟩ => ⟨s, h⟩, fun ⟨s, h⟩ => ⟨s, ?_, h⟩⟩
  exact List.mem_range.mpr (lt_length_of_member? h)

/-- The slots whose member has a key in a field, found by a scan. -/
def slotsWith (c : Collection) (field : String) (key : IndexKey) : List Nat :=
  (List.range c.slots.length).filter fun slot => (c.member? slot).any (·.entity.hasKey field key)

theorem mem_slotsWith {c : Collection} {field : String} {key : IndexKey} {slot : Nat} :
    slot ∈ c.slotsWith field key ↔
      ∃ m, c.member? slot = some m ∧ m.entity.keyOf field = .ok key := by
  rw [slotsWith, List.mem_filter, List.mem_range]
  constructor
  · rintro ⟨_, h⟩
    cases hm : c.member? slot with
    | none => simp [hm] at h
    | some m => exact ⟨m, rfl, Entity.hasKey_iff.mp (by simpa [hm] using h)⟩
  · rintro ⟨m, hm, hk⟩
    exact ⟨lt_length_of_member? hm, by simp [hm, Entity.hasKey_iff.mpr hk]⟩

theorem nodup_slotsWith (c : Collection) (field : String) (key : IndexKey) :
    (c.slotsWith field key).Nodup :=
  List.nodup_range.filter _

/-- The members in the scanned slots are the members with the key. -/
theorem filterMap_slotsWith (c : Collection) (field : String) (key : IndexKey) :
    (c.slotsWith field key).filterMap c.member? =
      c.members.filter (·.entity.hasKey field key) := by
  rw [slotsWith, members_eq, List.filterMap_filter, List.filter_filterMap]
  refine List.filterMap_congr fun s _ => ?_
  cases c.member? s with
  | none => rfl
  | some m => simp [Option.filter]

/-! ## Layout -/

/-- What a collection is, apart from its members. -/
def layout (c : Collection) : Option Origin × Option String × List String :=
  (c.origin, c.primaryKey, c.indexNames)

/-- The collection finds members by a field: it is the primary key or has an index. -/
def Tracks (c : Collection) (field : String) : Prop :=
  c.primaryKey = some field ∨ field ∈ c.indexNames

theorem layout_eq_iff {c d : Collection} :
    c.layout = d.layout ↔
      c.origin = d.origin ∧ c.primaryKey = d.primaryKey ∧ c.indexNames = d.indexNames := by
  simp [layout]

theorem tracks_congr {c d : Collection} (h : c.layout = d.layout) (field : String) :
    c.Tracks field ↔ d.Tracks field := by
  obtain ⟨_, hk, hn⟩ := layout_eq_iff.mp h
  rw [Tracks, Tracks, hk, hn]

theorem navigation_congr {c d : Collection} (h : c.layout = d.layout) :
    c.navigation = d.navigation := by
  rw [navigation, navigation, (layout_eq_iff.mp h).1]

/-- Each field is tracked once. -/
structure WellLaid (c : Collection) : Prop where
  nodup : c.indexNames.Nodup
  keyApart : ∀ field, c.primaryKey = some field → field ∉ c.indexNames

theorem wellLaid_congr {c d : Collection} (h : c.layout = d.layout) (hc : c.WellLaid) :
    d.WellLaid := by
  obtain ⟨_, hk, hn⟩ := layout_eq_iff.mp h
  exact ⟨hn ▸ hc.nodup, fun field hf => hn ▸ hc.keyApart field (hk ▸ hf)⟩

@[simp] theorem layout_purge (c : Collection) : c.purge.layout = c.layout := by
  simp [layout, purge, indexNames, Fields.names_mapValues]

@[simp] theorem layout_emptyLike (c : Collection) : c.emptyLike.layout = c.layout :=
  layout_purge c

/-- Without members there is nothing but the layout. -/
theorem purge_congr {c d : Collection} (h : c.layout = d.layout) : c.purge = d.purge := by
  obtain ⟨ho, hk, hn⟩ := layout_eq_iff.mp h
  have hmap : ∀ fs : Fields Index, fs.mapValues (fun _ => ([] : Index)) = fs.names.map (·, []) := by
    intro fs
    simp [Fields.mapValues, Fields.names]
  rw [purge, purge, hmap, hmap, ho, hk]
  exact congrArg (fun names => Collection.mk d.origin d.primaryKey (names.map (·, [])) [] 0 []) hn

@[simp] theorem members_purge (c : Collection) : c.purge.members = [] := rfl

@[simp] theorem members_emptyLike (c : Collection) : c.emptyLike.members = [] := rfl

/-! ## Agreement of the parts -/

/-- The parts of a collection agree: the count is that of the members, every member has a key in each
tracked field, and a key finds the slots that a scan finds. -/
structure Valid (c : Collection) : Prop extends c.WellLaid where
  size_eq : c.size = c.members.length
  keyed : ∀ field, c.Tracks field → ∀ m ∈ c.members, m.entity.IsKeyed field
  primary : ∀ field, c.primaryKey = some field →
    ∀ key slot, c.slotOfKey? key = some slot ↔ slot ∈ c.slotsWith field key
  sorted : ∀ entry ∈ c.indexes, entry.2.Sorted
  indexed : ∀ entry ∈ c.indexes, ∀ key, entry.2.slotsOf key = c.slotsWith entry.1 key

/-- No two members are of one identity. -/
def Apart (c : Collection) : Prop :=
  ∀ ⦃s t m n⦄, c.member? s = some m → c.member? t = some n → m.identity = n.identity → s = t

theorem slotsWith_eq_nil {c : Collection} (h : c.members = []) (field : String) (key : IndexKey) :
    c.slotsWith field key = [] := by
  refine List.eq_nil_iff_forall_not_mem.mpr fun slot hs => ?_
  obtain ⟨m, hm, -⟩ := mem_slotsWith.mp hs
  obtain ⟨⟩ := h ▸ mem_members_iff.mpr ⟨slot, hm⟩

/-- A collection without members is valid if its fields are tracked once and its indexes are empty. -/
theorem WellLaid.valid {c : Collection} (h : c.WellLaid) (hm : c.members = []) (hz : c.size = 0)
    (hk : c.byKey = []) (hi : ∀ entry ∈ c.indexes, entry.2 = []) : c.Valid where
  toWellLaid := h
  size_eq := by simp [hm, hz]
  keyed := by simp [hm]
  primary := by simp [slotOfKey?, hk, slotsWith_eq_nil hm]
  sorted entry he := hi entry he ▸ Index.sorted_nil
  indexed entry he key := by simp [hi entry he, slotsWith_eq_nil hm]

theorem WellLaid.purge {c : Collection} (h : c.WellLaid) : c.purge.Valid := by
  refine (wellLaid_congr (layout_purge c).symm h).valid rfl rfl rfl fun entry he => ?_
  obtain ⟨e, _, rfl⟩ := List.mem_map.mp he
  rfl

theorem emptyLike_eq_purge (c : Collection) : c.emptyLike = c.purge := rfl

theorem WellLaid.emptyLike {c : Collection} (h : c.WellLaid) : c.emptyLike.Valid :=
  emptyLike_eq_purge c ▸ h.purge

theorem apart_of_members_eq_nil {c : Collection} (h : c.members = []) : c.Apart := by
  intro s t m n hs
  obtain ⟨⟩ := h ▸ mem_members_iff.mpr ⟨s, hs⟩

theorem apart_of_slots_eq_nil {c : Collection} (h : c.slots = []) : c.Apart :=
  apart_of_members_eq_nil (by simp [members, h])

end Collection

end PathQuery
