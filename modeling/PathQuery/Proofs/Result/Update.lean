import Mathlib.Data.List.Find
import PathQuery.Proofs.Except
import PathQuery.Proofs.Result.Collection

/-!
# Proofs/Result/Update — adding and removing keep the parts of a collection in agreement

`Valid.add_cases` tells what an addition that does not fail comes to, `Valid.exists_add` when it does
not fail, and `Valid.exists_remove` that a member is taken out and the others stay.
-/

namespace PathQuery.Collection

/-! ## Keys read for the indexes -/

/-- The keys that were read are those of the fields, in their order. -/
theorem forall₂_of_indexKeys {e : Entity} {fields : List String} {keys : List IndexKey}
    (h : indexKeys e fields = .ok keys) :
    List.Forall₂ (fun field key => e.keyOf field = .ok key) fields keys := by
  induction fields generalizing keys with
  | nil => cases h; exact .nil
  | cons field rest ih =>
    rw [indexKeys] at h
    cases hk : e.keyOf field with
    | error f => rw [hk] at h; obtain ⟨⟩ := h
    | ok key =>
      rw [hk] at h
      cases hr : indexKeys e rest with
      | error f => rw [hr] at h; obtain ⟨⟩ := h
      | ok others =>
        rw [hr] at h
        cases h
        exact .cons hk (ih hr)

/-- A row whose keys were read has a key in each of the fields. -/
theorem isKeyed_of_indexKeys {e : Entity} {fields : List String} {keys : List IndexKey}
    (h : List.Forall₂ (fun field key => e.keyOf field = .ok key) fields keys) :
    ∀ field ∈ fields, e.IsKeyed field := by
  intro field hf
  obtain ⟨i, hi, rfl⟩ := List.getElem_of_mem hf
  exact ⟨_, (List.forall₂_iff_get.mp h).2 i hi (h.length_eq ▸ hi)⟩

theorem exists_indexKeys {e : Entity} {fields : List String}
    (h : ∀ field ∈ fields, e.IsKeyed field) : ∃ keys, indexKeys e fields = .ok keys := by
  induction fields with
  | nil => exact ⟨[], rfl⟩
  | cons field rest ih =>
    obtain ⟨key, hk⟩ := h field (List.mem_cons_self ..)
    obtain ⟨keys, hr⟩ := ih fun f hf => h f (List.mem_cons_of_mem _ hf)
    exact ⟨key :: keys, by rw [indexKeys, hk]; simp [hr, Except.map]⟩

/-! ## Appending -/

section Append

variable {c : Collection} {m : Member} {key : Option IndexKey} {keys : List IndexKey}

theorem member?_of_slots {c d : Collection} {m : Member} (h : d.slots = c.slots ++ [some m])
    (slot : Nat) :
    d.member? slot = if slot = c.slots.length then some m else c.member? slot := by
  rw [member?, h, member?]
  rcases Nat.lt_trichotomy slot c.slots.length with hlt | rfl | hgt
  · rw [List.getElem?_append_left hlt, if_neg (Nat.ne_of_lt hlt)]
  · simp
  · rw [List.getElem?_append_right (Nat.le_of_lt hgt), if_neg (Nat.ne_of_gt hgt),
      List.getElem?_eq_none (l := c.slots) (Nat.le_of_lt hgt), List.getElem?_eq_none]
    simp only [List.length_singleton]
    omega

theorem members_of_slots {c d : Collection} {m : Member} (h : d.slots = c.slots ++ [some m]) :
    d.members = c.members ++ [m] := by
  simp [members, h]

theorem rows_of_slots {c d : Collection} {m : Member} (h : d.slots = c.slots ++ [some m]) :
    d.rows = c.rows ++ [m.entity] := by
  simp [rows, members_of_slots h]

theorem slotsWith_of_slots {c d : Collection} {m : Member} (h : d.slots = c.slots ++ [some m])
    (field : String) (k : IndexKey) :
    d.slotsWith field k =
      c.slotsWith field k ++ if m.entity.hasKey field k then [c.slots.length] else [] := by
  rw [slotsWith, h, List.length_append, List.length_singleton, List.range_succ,
    List.filter_append]
  congr 1
  · refine List.filter_congr fun s hs => ?_
    rw [member?_of_slots h, if_neg (Nat.ne_of_lt (List.mem_range.mp hs))]
  · rw [List.filter_singleton, member?_of_slots h, if_pos rfl]
    cases hk : m.entity.hasKey field k <;> simp [hk]

theorem apart_of_slots {c d : Collection} {m : Member} (h : d.slots = c.slots ++ [some m])
    (hc : c.Apart) (hm : ∀ n ∈ c.members, n.identity ≠ m.identity) : d.Apart := by
  intro s t a b hs ht hab
  rw [member?_of_slots h] at hs ht
  split at hs <;> split at ht
  · omega
  · cases hs
    exact absurd hab.symm (hm b (mem_members_iff.mpr ⟨t, ht⟩))
  · cases ht
    exact absurd hab (hm a (mem_members_iff.mpr ⟨s, hs⟩))
  · exact hc hs ht hab

/-- What the primary keys find after an addition. -/
theorem slotOfKey?_append (k : IndexKey) (key : IndexKey) :
    (c.append m (some k) keys).slotOfKey? key =
      if k = key then some c.slots.length else c.slotOfKey? key := by
  simp only [slotOfKey?, append, List.find?_cons]
  by_cases hk : k = key
  · simp [hk]
  · simp [hk, beq_eq_false_iff_ne.mpr hk]

/-- The keys that a new member is added with: they are those of its row in the tracked fields, and the
primary key is not there yet. -/
structure New (c : Collection) (m : Member) (key : Option IndexKey) (keys : List IndexKey) :
    Prop where
  indexed : List.Forall₂ (fun field k => m.entity.keyOf field = .ok k) c.indexNames keys
  primary : ∀ field, c.primaryKey = some field →
    ∃ k, key = some k ∧ m.entity.keyOf field = .ok k ∧ c.slotOfKey? k = none

theorem New.isKeyed (hm : c.New m key keys) :
    ∀ field, c.Tracks field → m.entity.IsKeyed field := by
  rintro field (hf | hf)
  · obtain ⟨k, -, hk, -⟩ := hm.primary field hf
    exact ⟨k, hk⟩
  · exact isKeyed_of_indexKeys hm.indexed field hf

/-- An index after an addition is one before it, with the new slot under the key that was read. -/
theorem New.mem_indexes {entry : String × Index} (hm : c.New m key keys)
    (he : entry ∈ (c.append m key keys).indexes) :
    ∃ index k, (entry.1, index) ∈ c.indexes ∧ m.entity.keyOf entry.1 = .ok k ∧
      entry.2 = index.add k c.slots.length := by
  obtain ⟨⟨⟨field, index⟩, k⟩, hz, rfl⟩ := List.mem_map.mp he
  have hz' := List.forall₂_zip (List.forall₂_map_left_iff.mp hm.indexed) hz
  exact ⟨index, k, (List.of_mem_zip hz).1, hz', rfl⟩

/-- An addition keeps the layout, since it reads one key for each index. -/
theorem layout_append (hlen : keys.length = c.indexNames.length) :
    (c.append m key keys).layout = c.layout := by
  have hle : c.indexes.length ≤ keys.length := by
    rw [hlen, indexNames, Fields.names, List.length_map]
  have hnames : (c.append m key keys).indexNames = c.indexNames := by
    calc (c.append m key keys).indexNames
        = ((c.indexes.zip keys).map Prod.fst).map (·.1) := by
          simp [indexNames, Fields.names, append, Function.comp_def]
      _ = c.indexNames := by rw [List.map_fst_zip hle]; rfl
  exact layout_eq_iff.mpr ⟨rfl, rfl, hnames⟩

theorem New.layout (hm : c.New m key keys) : (c.append m key keys).layout = c.layout :=
  layout_append hm.indexed.length_eq.symm

/-- **Appending a new member keeps the parts in agreement.** -/
theorem New.valid (hm : c.New m key keys) (h : c.Valid) : (c.append m key keys).Valid := by
  have hs : (c.append m key keys).slots = c.slots ++ [some m] := rfl
  have ht := tracks_congr hm.layout
  exact { wellLaid_congr hm.layout.symm h.toWellLaid with
    size_eq := by
      rw [members_of_slots hs, List.length_append, ← h.size_eq]
      rfl
    keyed := fun field hf n hn => by
      rw [members_of_slots hs, List.mem_append, List.mem_singleton] at hn
      rcases hn with hn | rfl
      · exact h.keyed field ((ht field).mp hf) n hn
      · exact hm.isKeyed field ((ht field).mp hf)
    primary := fun field hf key slot => by
      obtain ⟨k, rfl, hk, hnone⟩ := hm.primary field hf
      rw [slotOfKey?_append, slotsWith_of_slots hs, List.mem_append, Entity.hasKey_of_keyOf hk,
        ← h.primary field hf]
      by_cases hkk : k = key
      · subst hkk
        simp [hnone, eq_comm]
      · simp [hkk]
    sorted := fun entry he => by
      obtain ⟨index, k, hi, -, heq⟩ := hm.mem_indexes he
      exact heq ▸ (h.sorted _ hi).add k _
    indexed := fun entry he key => by
      obtain ⟨index, k, hi, hk, heq⟩ := hm.mem_indexes he
      rw [heq, (h.sorted _ hi).slotsOf_add, slotsWith_of_slots hs, h.indexed _ hi, h.indexed _ hi,
        Entity.hasKey_of_keyOf hk]
      by_cases hkk : k = key
      · simp [hkk]
      · simp [hkk] }

end Append

/-! ## Adding -/

/-- A member of the same primary key, or of the same identity without one, is there. -/
def Present (c : Collection) (m : Member) : Prop :=
  match c.primaryKey with
  | some field => ∃ n ∈ c.members, ∃ k, m.entity.keyOf field = .ok k ∧ n.entity.keyOf field = .ok k
  | none => ∃ n ∈ c.members, n.identity = m.identity

theorem holds_iff {c : Collection} {identity : Nat} :
    c.holds identity = true ↔ ∃ n ∈ c.members, n.identity = identity := by
  simp [holds]

theorem Valid.slotOfKey?_eq_none_iff {c : Collection} (h : c.Valid) {field : String}
    (hf : c.primaryKey = some field) (key : IndexKey) :
    c.slotOfKey? key = none ↔ ∀ n ∈ c.members, n.entity.keyOf field ≠ .ok key := by
  constructor
  · intro hnone n hn hk
    obtain ⟨s, hs⟩ := mem_members_iff.mp hn
    have := (h.primary field hf key s).mpr (mem_slotsWith.mpr ⟨n, hs, hk⟩)
    rw [hnone] at this
    obtain ⟨⟩ := this
  · intro hall
    cases hs : c.slotOfKey? key with
    | none => rfl
    | some s =>
      obtain ⟨n, hn, hk⟩ := mem_slotsWith.mp ((h.primary field hf key s).mp hs)
      exact absurd hk (hall n (mem_members_iff.mpr ⟨s, hn⟩))

/-- With a primary key a member is present if its key is found. -/
theorem Valid.present_iff {c : Collection} {m : Member} (h : c.Valid) {field : String}
    (hp : c.primaryKey = some field) {k : IndexKey} (hk : m.entity.keyOf field = .ok k) :
    c.Present m ↔ (c.slotOfKey? k).isSome := by
  rw [Option.isSome_iff_ne_none, Ne, h.slotOfKey?_eq_none_iff hp]
  simp only [Present, hp, hk, Except.ok.injEq, exists_eq_left', not_forall, not_not, exists_prop]

theorem present_iff_of_none {c : Collection} {m : Member} (hp : c.primaryKey = none) :
    c.Present m ↔ c.holds m.identity := by
  simp only [Present, hp, holds_iff]

/-- A collection after the addition of a member that is not present. -/
structure Added (c : Collection) (m : Member) (d : Collection) : Prop where
  absent : ¬ c.Present m
  valid : d.Valid
  slots_eq : d.slots = c.slots ++ [some m]
  layout_eq : d.layout = c.layout
  isKeyed : ∀ field, c.Tracks field → m.entity.IsKeyed field

/-- An addition reads the keys of the indexes once the member is known to be new. -/
theorem Valid.added {c d : Collection} {m : Member} {key : Option IndexKey} {b : Bool} (h : c.Valid)
    (hm : ¬ c.Present m)
    (hkey : ∀ field, c.primaryKey = some field →
      ∃ k, key = some k ∧ m.entity.keyOf field = .ok k ∧ c.slotOfKey? k = none)
    (ha : (indexKeys m.entity c.indexNames).map (fun keys => (true, c.append m key keys)) =
      .ok (b, d)) :
    c.Added m d := by
  obtain ⟨keys, hk, hd⟩ := map_eq_ok.mp ha
  cases hd
  have hnew : c.New m key keys := ⟨forall₂_of_indexKeys hk, hkey⟩
  exact ⟨hm, hnew.valid h, rfl, hnew.layout, hnew.isKeyed⟩

/-- **What an addition comes to**: nothing if the member is present, and else the member at the end. -/
theorem Valid.add_cases {c d : Collection} {m : Member} {b : Bool} (h : c.Valid)
    (ha : c.add m = .ok (b, d)) : (c.Present m ∧ d = c) ∨ c.Added m d := by
  rw [add] at ha
  cases hp : c.primaryKey with
  | some field =>
    simp only [hp] at ha
    cases hk : m.entity.keyOf field with
    | error f => rw [hk] at ha; obtain ⟨⟩ := ha
    | ok k =>
      simp only [hk] at ha
      split at ha
      · rename_i hs
        cases ha
        exact .inl ⟨(h.present_iff hp hk).mpr hs, rfl⟩
      · rename_i hs
        refine .inr (h.added (fun hm => hs ((h.present_iff hp hk).mp hm)) (fun g hg => ?_) ha)
        cases hp.symm.trans hg
        exact ⟨k, rfl, hk, by simpa using hs⟩
  | none =>
    simp only [hp] at ha
    split at ha
    · rename_i hh
      cases ha
      exact .inl ⟨(present_iff_of_none hp).mpr hh, rfl⟩
    · rename_i hh
      refine .inr (h.added (fun hm => hh ((present_iff_of_none hp).mp hm)) (fun g hg => ?_) ha)
      obtain ⟨⟩ := hp.symm.trans hg

/-- A row with keys in all tracked fields can be added. -/
theorem exists_add {c : Collection} {m : Member}
    (hk : ∀ field, c.Tracks field → m.entity.IsKeyed field) : ∃ b d, c.add m = .ok (b, d) := by
  obtain ⟨keys, hkeys⟩ := exists_indexKeys fun field hf => hk field (.inr hf)
  rw [add]
  cases hp : c.primaryKey with
  | some field =>
    obtain ⟨k, hf⟩ := hk field (.inl hp)
    simp only [hf]
    split
    · exact ⟨_, _, rfl⟩
    · exact ⟨_, _, by rw [hkeys]; rfl⟩
  | none =>
    simp only
    split
    · exact ⟨_, _, rfl⟩
    · exact ⟨_, _, by rw [hkeys]; rfl⟩

/-! ## Adding rows under new identities -/

/-- The members are told apart by identities below a number. -/
structure Numbered (count : Nat) (c : Collection) : Prop where
  valid : c.Valid
  apart : c.Apart
  below : ∀ m ∈ c.members, m.identity < count

section Numbered

variable {c d : Collection} {count : Nat} {e : Entity}

theorem Numbered.mono (h : c.Numbered count) : c.Numbered (count + 1) :=
  ⟨h.valid, h.apart, fun m hm => Nat.lt_succ_of_lt (h.below m hm)⟩

/-- A row is not present if no row has its primary key. -/
theorem Numbered.not_present (h : c.Numbered count)
    (hk : ∀ field, c.primaryKey = some field → ∀ row ∈ c.rows, row.keyOf field ≠ e.keyOf field) :
    ¬ c.Present ⟨count, e⟩ := by
  rw [Present]
  split
  · rename_i field hp
    rintro ⟨m, hm, k, he, hmk⟩
    exact hk field hp m.entity (List.mem_map_of_mem hm) (hmk.trans he.symm)
  · rintro ⟨m, hm, he⟩
    exact Nat.ne_of_lt (h.below m hm) he

theorem Numbered.added (h : c.Numbered count) (hd : c.Added ⟨count, e⟩ d) :
    d.Numbered (count + 1) := by
  refine ⟨hd.valid, apart_of_slots hd.slots_eq h.apart fun m hm => Nat.ne_of_lt (h.below m hm),
    fun m hm => ?_⟩
  rw [members_of_slots hd.slots_eq, List.mem_append, List.mem_singleton] at hm
  rcases hm with hm | rfl
  · exact Nat.lt_succ_of_lt (h.below m hm)
  · exact Nat.lt_succ_self count

/-- A row that is added comes to the end, unless it is present. -/
theorem Numbered.add {b : Bool} (h : c.Numbered count) (ha : c.add ⟨count, e⟩ = .ok (b, d)) :
    d.Numbered (count + 1) ∧ d.layout = c.layout ∧
      (c.Present ⟨count, e⟩ ∧ d.rows = c.rows ∨ d.rows = c.rows ++ [e]) := by
  rcases h.valid.add_cases ha with ⟨hp, rfl⟩ | hd
  · exact ⟨h.mono, rfl, .inl ⟨hp, rfl⟩⟩
  · exact ⟨h.added hd, hd.layout_eq, .inr (rows_of_slots hd.slots_eq)⟩

end Numbered

/-! ## Removing -/

section Remove

variable {c : Collection} {m : Member} {slot : Nat}

/-- The indexes after the keys of a row were taken out of them at a slot. -/
def Dropped (e : Entity) (slot : Nat) : Fields Index → Fields Index → Prop :=
  List.Forall₂ fun entry entry' => entry'.1 = entry.1 ∧
    ∃ key, e.keyOf entry.1 = .ok key ∧ entry'.2 = entry.2.drop key slot

theorem Dropped.names_eq {e : Entity} {indexes indexes' : Fields Index}
    (h : Dropped e slot indexes indexes') : indexes'.names = indexes.names := by
  induction h with
  | nil => rfl
  | cons hentry _ ih => exact congrArg₂ List.cons hentry.1 ih

theorem Dropped.exists_mem {e : Entity} {indexes indexes' : Fields Index} {entry' : String × Index}
    (h : Dropped e slot indexes indexes') (he : entry' ∈ indexes') :
    ∃ entry ∈ indexes, entry'.1 = entry.1 ∧
      ∃ key, e.keyOf entry.1 = .ok key ∧ entry'.2 = entry.2.drop key slot := by
  obtain ⟨i, hi, rfl⟩ := List.getElem_of_mem he
  have hi' : i < indexes.length := List.Forall₂.length_eq h ▸ hi
  exact ⟨indexes[i], List.getElem_mem hi', (List.forall₂_iff_get.mp h).2 i hi' hi⟩

theorem dropKeys_of_keyed (slot : Nat) {e : Entity} {indexes : Fields Index}
    (h : ∀ field ∈ indexes.names, e.IsKeyed field) :
    ∃ indexes', dropKeys e slot indexes = (.ok (), indexes') ∧ Dropped e slot indexes indexes' := by
  induction indexes with
  | nil => exact ⟨[], rfl, .nil⟩
  | cons entry rest ih =>
    obtain ⟨field, index⟩ := entry
    obtain ⟨key, hk⟩ := h field (by simp [Fields.names])
    obtain ⟨rest', hr, hall⟩ := ih fun f hf => h f (by simp_all [Fields.names])
    refine ⟨(field, index.drop key slot) :: rest', ?_, .cons ⟨rfl, key, hk, rfl⟩ hall⟩
    rw [dropKeys, hk]
    simp only [hr]

/-- What stands in the slots once one of them is emptied. -/
theorem member?_of_set {d : Collection} (h : d.slots = c.slots.set slot none) (s : Nat) :
    d.member? s = if s = slot then none else c.member? s := by
  rw [member?, h, member?]
  by_cases hs : s = slot
  · subst hs
    rw [if_pos rfl]
    simp only [List.getElem?_set, if_true]
    split <;> rfl
  · rw [if_neg hs, List.getElem?_set_ne (Ne.symm hs)]

theorem slotsWith_of_set {d : Collection} (h : d.slots = c.slots.set slot none)
    (field : String) (k : IndexKey) :
    d.slotsWith field k = (c.slotsWith field k).filter (· != slot) := by
  rw [slotsWith, slotsWith, h, List.length_set, List.filter_filter]
  refine List.filter_congr fun s _ => ?_
  rw [member?_of_set h]
  by_cases hs : s = slot <;> simp [hs]

/-- The members that are left are those of another identity. -/
theorem members_of_set {d : Collection} (h : d.slots = c.slots.set slot none)
    (hm : c.member? slot = some m) (ha : c.Apart) :
    d.members = c.members.filter fun n => n.identity != m.identity := by
  rw [members_eq, members_eq, List.filter_filterMap, h, List.length_set]
  refine List.filterMap_congr fun s _ => ?_
  rw [member?_of_set h]
  by_cases hs : s = slot
  · subst hs
    simp [hm, Option.filter]
  · cases hn : c.member? s with
    | none => simp [hs]
    | some n =>
      have hne : n.identity ≠ m.identity := fun he => hs (ha hn hm he)
      simp [hs, Option.filter, hne]

theorem Apart.of_set {d : Collection} (ha : c.Apart) (h : d.slots = c.slots.set slot none) :
    d.Apart := by
  intro s t a b hs ht hab
  rw [member?_of_set h] at hs ht
  split at hs
  · obtain ⟨⟩ := hs
  · split at ht
    · obtain ⟨⟩ := ht
    · exact ha hs ht hab

theorem Valid.findSlot? (h : c.Valid) (ha : c.Apart) (hm : c.member? slot = some m) :
    c.findSlot? m = .ok (some slot) := by
  rw [Collection.findSlot?]
  cases hp : c.primaryKey with
  | some field =>
    obtain ⟨key, hk⟩ := h.keyed field (.inl hp) m (mem_members_iff.mpr ⟨slot, hm⟩)
    have hs := (h.primary field hp key slot).mpr (mem_slotsWith.mpr ⟨m, hm, hk⟩)
    simp only [hk, Except.map, hs]
  | none =>
    refine congrArg Except.ok (List.find?_eq_some_iff_getElem.mpr ⟨by simp [hm], slot, ?_⟩)
    refine ⟨by simpa using lt_length_of_member? hm, by simp, fun s hs => ?_⟩
    rw [List.getElem_range, Bool.not_eq_true']
    cases hn : c.member? s with
    | none => rfl
    | some n => exact beq_eq_false_iff_ne.mpr fun he => Nat.ne_of_lt hs (ha hn hm he)

theorem dropPrimary_of_keyed {e : Entity}
    (h : ∀ field, c.primaryKey = some field → e.IsKeyed field) :
    ∃ byKey, c.dropPrimary e = (.ok (), { c with byKey }) ∧
      ∀ field, c.primaryKey = some field →
        ∃ key, e.keyOf field = .ok key ∧ byKey = c.byKey.filter (·.1 != key) := by
  rw [dropPrimary]
  split
  · rename_i hp
    exact ⟨c.byKey, rfl, fun field hf => nomatch hp ▸ hf⟩
  · rename_i field hp
    obtain ⟨key, hk⟩ := h field hp
    refine ⟨c.byKey.filter (·.1 != key), by rw [hk], fun f hf => ?_⟩
    cases hp.symm.trans hf
    exact ⟨key, hk, rfl⟩

theorem length_filterMap_set {α : Type} {l : List (Option α)} {a : α}
    (h : l[slot]? = some (some a)) :
    ((l.set slot none).filterMap id).length + 1 = (l.filterMap id).length := by
  induction l generalizing slot with
  | nil => obtain ⟨⟩ := h
  | cons x rest ih =>
    cases slot with
    | zero =>
      cases h
      simp
    | succ slot =>
      have := ih h
      cases x <;> simp_all

/-- A primary key is found in one slot only. -/
theorem Valid.eq_of_mem_slotsWith (h : c.Valid) {field : String} (hf : c.primaryKey = some field)
    {key : IndexKey} {s t : Nat} (hs : s ∈ c.slotsWith field key)
    (ht : t ∈ c.slotsWith field key) : s = t := by
  have := ((h.primary field hf key s).mpr hs).symm.trans ((h.primary field hf key t).mpr ht)
  exact Option.some.inj this

/-- A primary key that was taken out is not found, and the others are found as before. -/
theorem slotOfKey?_of_byKey {d : Collection} {key : IndexKey}
    (h : d.byKey = c.byKey.filter (·.1 != key)) (k : IndexKey) :
    d.slotOfKey? k = if k = key then none else c.slotOfKey? k := by
  rw [slotOfKey?, h, List.find?_filter]
  split
  · rename_i hk
    subst hk
    simp
  · rename_i hk
    refine congrArg (Option.map _) (List.find?_congr fun e _ => ?_)
    by_cases he : e.1 = k <;> simp [he, hk]

/-- A slot is found under the key of its member and under no other. -/
theorem filter_slotsWith_of_ne (hm : c.member? slot = some m) {field : String} {key k : IndexKey}
    (hk : m.entity.keyOf field = .ok key) (hne : key ≠ k) :
    (c.slotsWith field k).filter (· != slot) = c.slotsWith field k := by
  refine List.filter_eq_self.mpr fun s hs => bne_iff_ne.mpr ?_
  rintro rfl
  obtain ⟨n, hn, hnk⟩ := mem_slotsWith.mp hs
  cases hm.symm.trans hn
  exact hne (Except.ok.inj (hk.symm.trans hnk))

/-- **Emptying a slot and dropping the keys of its member** keeps the parts in agreement. -/
theorem Valid.set {d : Collection} (h : c.Valid) (hm : c.member? slot = some m)
    (hd : d.layout = c.layout) (hs : d.slots = c.slots.set slot none) (hz : d.size = c.size - 1)
    (hi : Dropped m.entity slot c.indexes d.indexes)
    (hk : ∀ field, c.primaryKey = some field →
      ∃ key, m.entity.keyOf field = .ok key ∧ d.byKey = c.byKey.filter (·.1 != key)) :
    d.Valid where
  toWellLaid := wellLaid_congr hd.symm h.toWellLaid
  size_eq := by
    have := length_filterMap_set (Option.join_eq_some_iff.mp hm)
    rw [hz, h.size_eq, members, members, hs, ← this]
    rfl
  keyed field hf n hn := by
    obtain ⟨s, hn⟩ := mem_members_iff.mp hn
    rw [member?_of_set hs] at hn
    split at hn
    · obtain ⟨⟩ := hn
    · exact h.keyed field ((tracks_congr hd field).mp hf) n (mem_members_iff.mpr ⟨s, hn⟩)
  primary field hf k s := by
    have hp : c.primaryKey = some field := (layout_eq_iff.mp hd).2.1 ▸ hf
    obtain ⟨key, hkey, hb⟩ := hk field hp
    rw [slotOfKey?_of_byKey hb, slotsWith_of_set hs]
    split
    · -- the key that was dropped was found in the emptied slot only
      rename_i hkk
      subst hkk
      refine ⟨by rintro ⟨⟩, fun hn => ?_⟩
      obtain ⟨hn, hne⟩ := List.mem_filter.mp hn
      exact absurd (h.eq_of_mem_slotsWith hp hn (mem_slotsWith.mpr ⟨m, hm, hkey⟩))
        (bne_iff_ne.mp hne)
    · rename_i hkk
      rw [filter_slotsWith_of_ne hm hkey (Ne.symm hkk)]
      exact h.primary field hp k s
  sorted entry' he := by
    obtain ⟨entry, hmem, -, key, -, heq⟩ := hi.exists_mem he
    exact heq ▸ (h.sorted entry hmem).drop key slot
  indexed entry' he k := by
    obtain ⟨entry, hmem, hname, key, hkey, heq⟩ := hi.exists_mem he
    rw [heq, (h.sorted entry hmem).slotsOf_drop, slotsWith_of_set hs, hname,
      h.indexed entry hmem, h.indexed entry hmem]
    split
    · rename_i hkk
      rw [hkk]
    · rename_i hkk
      exact (filter_slotsWith_of_ne hm hkey hkk).symm

/-- What is found leaves its slot, and the parts stay in agreement. -/
theorem Valid.remove_of_findSlot? {n : Member} (h : c.Valid) (hf : c.findSlot? n = .ok (some slot))
    (hm : c.member? slot = some m) :
    ∃ d, c.remove n = (.ok true, d) ∧ d.Valid ∧ d.layout = c.layout ∧
      d.slots = c.slots.set slot none ∧ (c.primaryKey = none → d.byKey = c.byKey) := by
  have hmem : m ∈ c.members := mem_members_iff.mpr ⟨slot, hm⟩
  have hkeyed : ∀ field ∈ c.indexes.names, m.entity.IsKeyed field := fun field hf =>
    h.keyed field (.inr hf) m hmem
  obtain ⟨indexes, hdrop, hall⟩ := dropKeys_of_keyed slot hkeyed
  obtain ⟨byKey, hprimary, hkeys⟩ :=
    dropPrimary_of_keyed (c := { c with slots := c.slots.set slot none, indexes })
      fun field hf => h.keyed field (.inl hf) m hmem
  have hl : Collection.layout ⟨c.origin, c.primaryKey, indexes, c.slots.set slot none, c.size - 1,
      byKey⟩ = c.layout := layout_eq_iff.mpr ⟨rfl, rfl, hall.names_eq⟩
  refine ⟨_, ?_, h.set hm hl rfl rfl hall hkeys, hl, rfl, fun hnone => ?_⟩
  · rw [remove, hf]
    simp only [hm, hdrop, hprimary]
  · rw [dropPrimary, show (Collection.primaryKey _) = none from hnone] at hprimary
    exact (congrArg (fun r => r.2.byKey) hprimary).symm

/-- **Removing a member** takes out the members of its identity and keeps the parts in agreement. -/
theorem Valid.exists_remove (h : c.Valid) (ha : c.Apart) (hm : m ∈ c.members) :
    ∃ d, c.remove m = (.ok true, d) ∧ d.Valid ∧ d.Apart ∧ d.layout = c.layout ∧
      d.members = c.members.filter fun n => n.identity != m.identity := by
  obtain ⟨slot, hslot⟩ := mem_members_iff.mp hm
  obtain ⟨d, hr, hd, hl, hs, -⟩ := h.remove_of_findSlot? (h.findSlot? ha hslot) hslot
  exact ⟨d, hr, hd, ha.of_set hs, hl, members_of_set hs hslot ha⟩

end Remove

end PathQuery.Collection
