import PathQuery.Proofs.Result.Roll

/-!
# Proofs/Result/Refinement — a collection answers as a plain list does

    collection ──operation──▸ collection
        │ roll                    │ roll
        ▾                         ▾
      list   ───operation──▸     list

From an empty collection on, any sequence of operations is answered as by the roll, and what is read off
the collection in the end is read off the roll (`refines_runAll`).  That the map of the primary keys, the
indexes and the count agree with the slots is what each operation keeps (`Collection.Consistent`), also
where a collection was emptied one member after the other and is laid out anew over its dead slots.
-/

namespace PathQuery.Collection

variable {c d : Collection} {slot : Nat} {m : Member} {field : String} {key : IndexKey}

/-! ## Consistent collections -/

/-- The parts agree, and without a primary key no two members are of one identity and no key is kept. -/
structure Consistent (c : Collection) : Prop extends c.Valid where
  apart : c.primaryKey = none → c.Apart
  keyless : c.primaryKey = none → c.byKey = []

/-- An operation on a consistent collection and on its roll: the answers are the same, the roll stays that
of the collection, and a failure changes nothing. -/
structure Follows (c : Collection) (p : Answer × Collection) (q : Answer × Roll) : Prop where
  answer_eq : p.1 = q.1
  consistent : p.2.Consistent
  roll_eq : p.2.roll = q.2
  unchanged : ∀ f, p.1 = .error f → p.2 = c

/-- What changes nothing on both sides. -/
theorem Consistent.follows_self (h : c.Consistent) (answer : Answer) :
    c.Follows (answer, c) (answer, c.roll) := ⟨rfl, h, rfl, fun _ _ => rfl⟩

/-! ## Layout -/

theorem roll_eq_iff {r : Roll} : c.roll = r ↔ c.primaryKey = r.primaryKey ∧
    c.indexNames = r.indexNames ∧ c.entries = r.entries ∧ c.slots.length = r.next := by
  cases r
  simp [roll]

theorem entries_congr (h : d.slots = c.slots) : d.entries = c.entries := by
  simp only [entries, member?, h]

theorem members_congr (h : d.slots = c.slots) : d.members = c.members := by
  rw [members, members, h]

/-- Without members no primary key is kept. -/
theorem Consistent.byKey_eq_nil (h : c.Consistent) (hm : c.members = []) : c.byKey = [] := by
  cases hp : c.primaryKey with
  | none => exact h.keyless hp
  | some field =>
    cases hb : c.byKey with
    | nil => rfl
    | cons entry rest =>
      have hs : c.slotOfKey? entry.1 = some entry.2 := by simp [slotOfKey?, hb]
      have := (h.primary field hp entry.1 entry.2).mp hs
      rw [slotsWith_eq_nil hm] at this
      obtain ⟨⟩ := this

/-- Without members the indexes are empty. -/
theorem Valid.index_eq_nil (h : c.Valid) (hm : c.members = []) {entry : String × Index}
    (he : entry ∈ c.indexes) : entry.2 = [] := by
  refine List.eq_nil_iff_forall_not_mem.mpr fun listed hl => ?_
  have hkey : listed.1 ∈ entry.2.keys := List.mem_map_of_mem hl
  refine ((h.sorted entry he).mem_keys_iff _).mp hkey ?_
  rw [h.indexed entry he, slotsWith_eq_nil hm]

/-- A new layout of a collection without members is consistent. -/
theorem Consistent.relaid (h : c.Consistent) (hm : c.members = []) (hd : d.WellLaid)
    (hs : d.slots = c.slots) (hz : d.size = c.size) (hk : d.byKey = c.byKey)
    (hi : ∀ entry ∈ d.indexes, entry ∈ c.indexes ∨ entry.2 = []) : d.Consistent := by
  have hdm : d.members = [] := (members_congr hs).trans hm
  have hdk : d.byKey = [] := hk.trans (h.byKey_eq_nil hm)
  have hdz : d.size = 0 := by rw [hz, h.size_eq, hm, List.length_nil]
  exact ⟨hd.valid hdm hdz hdk fun entry he => (hi entry he).elim (h.index_eq_nil hm) id,
    fun _ => apart_of_members_eq_nil hdm, fun _ => hdk⟩

theorem Consistent.setPrimaryKey_follows (h : c.Consistent) (field : String) :
    c.Follows (c.orKeep ((c.setPrimaryKey field).map (true, ·))) (c.roll.setPrimaryKey field) := by
  have hsize : c.size = c.entries.length := h.size_eq.trans (length_entries c).symm
  rw [setPrimaryKey, Roll.setPrimaryKey, entries_roll, indexNames_roll]
  by_cases he : field = ""
  · rw [if_pos he, if_pos he]
    exact h.follows_self _
  · rw [if_neg he, if_neg he, checkEmpty, hsize]
    by_cases hm : c.entries = []
    · rw [if_neg (by simp [hm]), if_neg (not_not.mpr hm)]
      have hkey : (c.withPrimaryKey field).primaryKey = some field := by
        rw [withPrimaryKey, if_neg he]
      exact ⟨rfl, h.relaid (entries_eq_nil_iff.mp hm) (h.toWellLaid.withPrimaryKey field)
          (slots_withPrimaryKey c field) (size_withPrimaryKey c field) (byKey_withPrimaryKey c field)
          fun entry hi => .inl (mem_indexes_withPrimaryKey hi),
        roll_eq_iff.mpr ⟨hkey, indexNames_withPrimaryKey c he,
          entries_congr (slots_withPrimaryKey c field), congrArg _ (slots_withPrimaryKey c field)⟩,
        by rintro _ ⟨⟩⟩
    · rw [if_pos (List.length_pos_iff.mpr hm), if_pos hm]
      exact h.follows_self _

theorem Consistent.addIndex_follows (h : c.Consistent) (field : String) :
    c.Follows (c.orKeep ((c.addIndex field).map (true, ·))) (c.roll.addIndex field) := by
  have hsize : c.size = c.entries.length := h.size_eq.trans (length_entries c).symm
  rw [addIndex, Roll.addIndex, checkEmpty, hsize, entries_roll, primaryKey_roll, indexNames_roll]
  by_cases hm : c.entries = []
  · rw [if_neg (by simp [hm]), if_neg (not_not.mpr hm)]
    have hd := h.relaid (entries_eq_nil_iff.mp hm) (h.toWellLaid.withIndex field)
      (slots_withIndex c field) (size_withIndex c field) (byKey_withIndex c field)
      fun _ => mem_indexes_withIndex
    have hroll : ∀ names, (c.withIndex field).indexNames = names →
        (c.withIndex field).roll = { c.roll with indexNames := names } := fun names hn =>
      roll_eq_iff.mpr ⟨primaryKey_withIndex c field, hn, entries_congr (slots_withIndex c field),
        congrArg _ (slots_withIndex c field)⟩
    have hnames := indexNames_withIndex c field
    split at hnames
    · rw [if_pos ‹_›]
      exact ⟨rfl, hd, hroll _ hnames, by rintro _ ⟨⟩⟩
    · rw [if_neg ‹_›]
      exact ⟨rfl, hd, hroll _ hnames, by rintro _ ⟨⟩⟩
  · rw [if_pos (List.length_pos_iff.mpr hm), if_pos hm]
    exact h.follows_self _

/-! ## The same member -/

/-- A test finds a slot exactly if the slot's member passes it. -/
def Finds (c : Collection) (same : Member → Bool) (found : Option Nat) : Prop :=
  ∀ slot, found = some slot ↔ ∃ n, c.member? slot = some n ∧ same n = true

section Finds

variable {same : Member → Bool} {found : Option Nat}

theorem Finds.any_entries (h : c.Finds same found) :
    (c.entries.any fun e => same e.2) = found.isSome := by
  rw [Bool.eq_iff_iff, List.any_eq_true, Option.isSome_iff_exists]
  constructor
  · rintro ⟨⟨s, n⟩, he, hn⟩
    exact ⟨s, (h s).mpr ⟨n, mem_entries_iff.mp he, hn⟩⟩
  · rintro ⟨s, hs⟩
    obtain ⟨n, hm, hn⟩ := (h s).mp hs
    exact ⟨(s, n), mem_entries_iff.mpr hm, hn⟩

/-- The members that fail the test are those in other slots. -/
theorem Finds.filter_entries (h : c.Finds same found) :
    (c.entries.filter fun e => !same e.2) = c.entries.filter fun e => found != some e.1 := by
  refine List.filter_congr fun e he => ?_
  obtain ⟨s, n⟩ := e
  have hn := mem_entries_iff.mp he
  rw [bne, Bool.not_inj_iff, Bool.eq_iff_iff, beq_iff_eq, h s]
  exact ⟨fun hs => ⟨n, hn, hs⟩, fun ⟨n', hn', hs⟩ => Option.some.inj (hn.symm.trans hn') ▸ hs⟩

/-- The primary key finds the member that has it. -/
theorem Valid.finds_key (h : c.Valid) (hp : c.primaryKey = some field) (key : IndexKey) :
    c.Finds (·.entity.hasKey field key) (c.slotOfKey? key) := by
  intro slot
  simp only [h.primary field hp, mem_slotsWith, Entity.hasKey_iff]

/-- The first member of an identity is the only one. -/
theorem Apart.finds_identity (h : c.Apart) (identity : Nat) :
    c.Finds (·.identity == identity) ((List.range c.slots.length).find? fun slot =>
      (c.member? slot).any (·.identity == identity)) := by
  intro slot
  constructor
  · intro hf
    have hany : (c.member? slot).any (·.identity == identity) = true :=
      List.find?_some (p := fun slot => (c.member? slot).any _) hf
    simpa [Option.any_eq_true] using hany
  · rintro ⟨n, hn, hi⟩
    have hsome : (c.member? slot).any (·.identity == identity) = true := by rw [hn]; exact hi
    obtain ⟨t, ht⟩ := Option.isSome_iff_exists.mp (List.find?_isSome
      (p := fun slot => (c.member? slot).any (·.identity == identity)) |>.mpr
        ⟨slot, List.mem_range.mpr (lt_length_of_member? hn), hsome⟩)
    have hany : (c.member? t).any (·.identity == identity) = true :=
      List.find?_some (p := fun slot => (c.member? slot).any _) ht
    obtain ⟨n', hn', hi'⟩ := Option.any_eq_true _ _ |>.mp hany
    rw [ht, h hn' hn ((eq_of_beq hi').trans (eq_of_beq hi).symm)]

/-- The test for a member and the slot that it finds. -/
theorem Consistent.exists_finds (h : c.Consistent) (hs : c.roll.sameAs m = .ok same) :
    ∃ found, c.findSlot? m = .ok found ∧ c.Finds same found := by
  rw [findSlot?]
  cases hp : c.primaryKey with
  | some field =>
    rw [Roll.sameAs_of_some hp, map_eq_ok] at hs
    obtain ⟨key, hk, rfl⟩ := hs
    exact ⟨_, by simp only [hk]; rfl, h.finds_key hp key⟩
  | none =>
    rw [Roll.sameAs_of_none hp] at hs
    cases hs
    exact ⟨_, rfl, (h.apart hp).finds_identity m.identity⟩

theorem findSlot?_eq_error {f : Failure} (hs : c.roll.sameAs m = .error f) :
    c.findSlot? m = .error f := by
  rw [findSlot?]
  cases hp : c.primaryKey with
  | some field =>
    rw [Roll.sameAs_of_some hp] at hs
    cases hk : m.entity.keyOf field with
    | error f' =>
      rw [hk] at hs
      cases hs
      simp only [hk]
      rfl
    | ok key =>
      rw [hk] at hs
      obtain ⟨⟩ := hs
  | none =>
    rw [Roll.sameAs_of_none hp] at hs
    obtain ⟨⟩ := hs

end Finds

/-! ## Adding and removing -/

theorem entries_of_append (h : d.slots = c.slots ++ [some m]) :
    d.entries = c.entries ++ [(c.slots.length, m)] := by
  rw [entries, h, List.length_append, List.length_singleton, List.range_succ, List.filterMap_append]
  congr 1
  · refine List.filterMap_congr fun s hs => ?_
    rw [member?_of_slots h, if_neg (Nat.ne_of_lt (List.mem_range.mp hs))]
  · simp [member?_of_slots h]

/-- Appending a member that is not there, once the keys of its index fields are read. -/
theorem Consistent.append_follows (h : c.Consistent) {primary : Option IndexKey}
    (hkey : ∀ field, c.primaryKey = some field →
      ∃ k, primary = some k ∧ m.entity.keyOf field = .ok k ∧ c.slotOfKey? k = none)
    (hnone : c.primaryKey = none → primary = none ∧ ∀ n ∈ c.members, n.identity ≠ m.identity) :
    c.Follows (c.orKeep ((indexKeys m.entity c.indexNames).map fun keys =>
      (true, c.append m primary keys))) (c.roll.append m) := by
  rw [Roll.append, indexNames_roll]
  cases hi : indexKeys m.entity c.indexNames with
  | error f => exact h.follows_self _
  | ok keys =>
    have hnew : c.New m primary keys := ⟨forall₂_of_indexKeys hi, hkey⟩
    have hslots : (c.append m primary keys).slots = c.slots ++ [some m] := rfl
    have hnames : (c.append m primary keys).indexNames = c.indexNames :=
      (layout_eq_iff.mp hnew.layout).2.2
    refine ⟨rfl, ⟨hnew.valid h.toValid, fun hp => ?_, fun hp => ?_⟩, ?_, by rintro _ ⟨⟩⟩
    · exact apart_of_slots hslots (h.apart hp) (hnone hp).2
    · obtain ⟨rfl, -⟩ := hnone hp
      exact h.keyless hp
    · exact roll_eq_iff.mpr ⟨rfl, hnames, entries_of_append hslots, List.length_append⟩

theorem Consistent.add_follows (h : c.Consistent) (m : Member) :
    c.Follows (c.orKeep (c.add m)) (c.roll.add m) := by
  rw [add, Roll.add, entries_roll]
  cases hp : c.primaryKey with
  | some field =>
    rw [Roll.sameAs_of_some hp]
    dsimp only
    cases hk : m.entity.keyOf field with
    | error f => exact h.follows_self _
    | ok key =>
      change c.Follows (c.orKeep (if (c.slotOfKey? key).isSome then _ else _))
        (if c.entries.any (fun e => e.2.entity.hasKey field key) then _ else _)
      rw [(h.finds_key hp key).any_entries]
      cases hs : c.slotOfKey? key with
      | some slot => exact h.follows_self _
      | none =>
        refine h.append_follows (fun f hf => ?_) fun hn =>
          absurd (hp.symm.trans hn) (Option.some_ne_none field)
        cases hp.symm.trans hf
        exact ⟨key, rfl, hk, hs⟩
  | none =>
    have hany : (c.entries.any fun e => e.2.identity == m.identity) = c.holds m.identity := by
      rw [holds, ← map_snd_entries, List.any_map]
      rfl
    rw [Roll.sameAs_of_none hp]
    dsimp only
    rw [hany]
    cases hh : c.holds m.identity with
    | true => exact h.follows_self _
    | false =>
      refine h.append_follows (fun f hf => absurd (hf.symm.trans hp) (Option.some_ne_none f))
        fun _ => ⟨rfl, ?_⟩
      simpa [holds] using hh

theorem entries_of_set (h : d.slots = c.slots.set slot none) :
    d.entries = c.entries.filter fun e => some slot != some e.1 := by
  rw [entries, entries, List.filter_filterMap, h, List.length_set]
  refine List.filterMap_congr fun s _ => ?_
  rw [member?_of_set h]
  by_cases hs : s = slot
  · subst hs
    cases c.member? s <;> simp [Option.filter]
  · cases c.member? s <;> simp [hs, Ne.symm hs, Option.filter]

theorem Consistent.remove_follows (h : c.Consistent) (m : Member) :
    c.Follows (c.remove m) (c.roll.remove m) := by
  rw [Roll.remove]
  cases hsame : c.roll.sameAs m with
  | error f =>
    rw [remove, findSlot?_eq_error hsame]
    exact h.follows_self _
  | ok same =>
    obtain ⟨found, hf, hfinds⟩ := h.exists_finds hsame
    simp only [entries_roll, hfinds.any_entries, hfinds.filter_entries]
    cases found with
    | none =>
      rw [remove, hf]
      have hall : c.entries = c.entries.filter fun e => none != some e.1 :=
        (List.filter_eq_self.mpr fun _ _ => rfl).symm
      exact ⟨rfl, h, roll_eq_iff.mpr ⟨rfl, rfl, hall, rfl⟩, by rintro _ ⟨⟩⟩
    | some slot =>
      obtain ⟨n, hn, -⟩ := (hfinds slot).mp rfl
      obtain ⟨d, hr, hd, hl, hs, hb⟩ := h.remove_of_findSlot? hf hn
      obtain ⟨-, hpk, hnames⟩ := layout_eq_iff.mp hl
      rw [hr]
      refine ⟨rfl, ⟨hd, fun hp => ?_, fun hp => ?_⟩, ?_, by rintro _ ⟨⟩⟩
      · exact (h.apart (hpk ▸ hp)).of_set hs
      · exact (hb (hpk ▸ hp)).trans (h.keyless (hpk ▸ hp))
      · exact roll_eq_iff.mpr ⟨hpk, hnames, entries_of_set hs, by rw [hs, List.length_set]; rfl⟩

theorem Consistent.purge_follows (h : c.Consistent) :
    c.Follows (.ok true, c.purge) c.roll.purge := by
  refine ⟨rfl, ⟨h.toWellLaid.purge, fun _ => apart_of_slots_eq_nil rfl, fun _ => rfl⟩, ?_,
    by rintro _ ⟨⟩⟩
  exact roll_eq_iff.mpr ⟨rfl, (layout_eq_iff.mp (layout_purge c)).2.2, rfl, rfl⟩

/-! ## Edits in place -/

section Edit

variable {f : Member → Member} {s : Nat} {n : Member}

theorem member?_edit (c : Collection) (slot : Nat) (f : Member → Member) (s : Nat) :
    (c.edit slot f).member? s = if s = slot then (c.member? s).map f else c.member? s := by
  simp only [member?, edit, List.getElem?_modify]
  by_cases hs : slot = s
  · subst hs
    rcases c.slots[slot]? with _ | _ | _ <;> simp
  · rcases c.slots[s]? with _ | _ | _ <;> simp [hs, Ne.symm hs]

theorem entries_edit (c : Collection) (slot : Nat) (f : Member → Member) :
    (c.edit slot f).entries = c.entries.map fun e => if e.1 = slot then (e.1, f e.2) else e := by
  have hlen : (c.edit slot f).slots.length = c.slots.length := List.length_modify ..
  rw [entries, entries, List.map_filterMap, hlen]
  refine List.filterMap_congr fun s _ => ?_
  rw [member?_edit]
  by_cases hs : s = slot <;> cases c.member? s <;> simp [hs]

/-- The member in a slot after an edit is the one before it or, in the slot of the edit, its image. -/
theorem exists_of_member?_edit (h : (c.edit slot f).member? s = some n) :
    ∃ m, c.member? s = some m ∧ n = if s = slot then f m else m := by
  rw [member?_edit] at h
  split at h
  · obtain ⟨m, hm, rfl⟩ := Option.map_eq_some_iff.mp h
    exact ⟨m, hm, (if_pos ‹_›).symm⟩
  · exact ⟨n, h, (if_neg ‹_›).symm⟩

variable (hk : (Operation.edit slot f).Keeps c)
include hk

theorem keyOf_edit (hm : c.member? s = some m) {field : String} (hf : c.Tracks field) :
    (if s = slot then f m else m).entity.keyOf field = m.entity.keyOf field := by
  split
  · rename_i hs
    exact (hk m (hs ▸ hm)).1 field hf
  · rfl

theorem slotsWith_edit {field : String} (hf : c.Tracks field) (key : IndexKey) :
    (c.edit slot f).slotsWith field key = c.slotsWith field key := by
  have hlen : (c.edit slot f).slots.length = c.slots.length := List.length_modify ..
  rw [slotsWith, slotsWith, hlen]
  refine List.filter_congr fun s _ => ?_
  rw [member?_edit]
  cases hm : c.member? s with
  | none => simp
  | some m =>
    have := keyOf_edit hk hm hf
    by_cases hs : s = slot <;> simp_all [Entity.hasKey]

theorem Valid.edit (h : c.Valid) : (c.edit slot f).Valid := by
  have hlaid : (c.edit slot f).WellLaid := wellLaid_congr (c := c) rfl h.toWellLaid
  refine ⟨hlaid, ?_, fun field hf n hn => ?_, fun field hp key s => ?_, h.sorted,
    fun entry he key => ?_⟩
  · rw [← length_entries, entries_edit, List.length_map, length_entries]
    exact h.size_eq
  · obtain ⟨s, hs⟩ := mem_members_iff.mp hn
    obtain ⟨m, hm, rfl⟩ := exists_of_member?_edit hs
    obtain ⟨key, hkey⟩ := h.keyed field hf m (mem_members_iff.mpr ⟨s, hm⟩)
    exact ⟨key, (keyOf_edit hk hm hf).trans hkey⟩
  · rw [slotsWith_edit hk (.inl hp)]
    exact h.primary field hp key s
  · rw [slotsWith_edit hk (.inr (List.mem_map_of_mem he))]
    exact h.indexed entry he key

/-- A member that keeps its identity or gets a new one stays apart from the others. -/
theorem Apart.edit (h : c.Apart) : (c.edit slot f).Apart := by
  have hother : ∀ {t m₁ m₂}, t ≠ slot → c.member? slot = some m₁ → c.member? t = some m₂ →
      (f m₁).identity ≠ m₂.identity := by
    intro t m₁ m₂ ht h₁ h₂ he
    rcases (hk m₁ h₁).2 with hi | hi
    · exact ht (h h₂ h₁ (he.symm.trans hi))
    · exact hi m₂ (mem_members_iff.mpr ⟨t, h₂⟩) he.symm
  intro s t a b hs ht hab
  obtain ⟨m₁, h₁, rfl⟩ := exists_of_member?_edit hs
  obtain ⟨m₂, h₂, rfl⟩ := exists_of_member?_edit ht
  by_cases hs' : s = slot
  · by_cases ht' : t = slot
    · exact hs'.trans ht'.symm
    · rw [if_pos hs', if_neg ht'] at hab
      exact absurd hab (hother ht' (hs' ▸ h₁) h₂)
  · by_cases ht' : t = slot
    · rw [if_neg hs', if_pos ht'] at hab
      exact absurd hab.symm (hother hs' (ht' ▸ h₂) h₁)
    · rw [if_neg hs', if_neg ht'] at hab
      exact h h₁ h₂ hab

theorem Consistent.edit_follows (h : c.Consistent) :
    c.Follows (.ok (c.member? slot).isSome, c.edit slot f) (c.roll.edit slot f) := by
  have hany : (c.member? slot).isSome = c.entries.any fun e => e.1 == slot := by
    rw [Bool.eq_iff_iff, Option.isSome_iff_exists, List.any_eq_true]
    constructor
    · rintro ⟨m, hm⟩
      exact ⟨(slot, m), mem_entries_iff.mpr hm, beq_self_eq_true slot⟩
    · rintro ⟨⟨s, m⟩, he, hs⟩
      exact ⟨m, eq_of_beq hs ▸ mem_entries_iff.mp he⟩
  refine ⟨congrArg _ hany, ⟨h.toValid.edit hk, fun hp => (h.apart hp).edit hk, h.keyless⟩, ?_,
    by rintro _ ⟨⟩⟩
  exact roll_eq_iff.mpr ⟨rfl, rfl, entries_edit c slot f, List.length_modify ..⟩

end Edit

/-! ## Sequences of operations -/

open Operation (runAll onCollection onRoll KeepAll)

/-- **One operation** is answered as by the roll. -/
theorem Consistent.follows (h : c.Consistent) {op : Operation} (hk : op.Keeps c) :
    c.Follows (op.onCollection c) (op.onRoll c.roll) := by
  cases op with
  | setPrimaryKey field => exact h.setPrimaryKey_follows field
  | addIndex field => exact h.addIndex_follows field
  | add m => exact h.add_follows m
  | remove m => exact h.remove_follows m
  | purge => exact h.purge_follows
  | edit slot f => exact h.edit_follows hk

/-- Operations one after the other are answered as by the roll, which stays that of the collection. -/
theorem Consistent.follows_runAll (h : c.Consistent) {ops : List Operation} (hk : KeepAll c ops) :
    (runAll onCollection ops c).1 = (runAll onRoll ops c.roll).1 ∧
      (runAll onCollection ops c).2.Consistent ∧
      (runAll onCollection ops c).2.roll = (runAll onRoll ops c.roll).2 := by
  induction ops generalizing c with
  | nil => exact ⟨rfl, h, rfl⟩
  | cons op ops ih =>
    obtain ⟨hop, hops⟩ := hk
    have hf := h.follows hop
    obtain ⟨hanswers, hc, hroll⟩ := ih hf.consistent hops
    rw [hf.roll_eq] at hanswers hroll
    exact ⟨congrArg₂ List.cons hf.answer_eq hanswers, hc, hroll⟩

theorem sameAs_self {r : Roll} {same : Member → Bool} (h : r.sameAs m = .ok same) :
    same m = true := by
  cases hp : r.primaryKey with
  | some field =>
    rw [Roll.sameAs_of_some hp, map_eq_ok] at h
    obtain ⟨key, hk, rfl⟩ := h
    exact Entity.hasKey_iff.mpr hk
  | none =>
    rw [Roll.sameAs_of_none hp] at h
    cases h
    exact beq_self_eq_true m.identity

/-- A consistent collection is read off its roll. -/
theorem Consistent.refines (h : c.Consistent) : Refines c c.roll where
  primaryKey_eq := rfl
  indexNames_eq := rfl
  members_eq := (map_snd_entries c).symm
  size_eq := h.size_eq.trans (length_entries c).symm
  liveSlots_eq := (map_fst_entries c).symm
  ascending := ascending_entries c
  member?_eq_some_iff _ _ := mem_entries_iff.symm
  slotsBy_eq field key := by
    rw [Roll.slotsBy, primaryKey_roll, indexNames_roll, entries_roll]
    split
    · rename_i hf
      rw [h.slotsBy_eq hf, slotsWith, map_fst_filter_entries c fun m => m.entity.hasKey field key]
    · rename_i hf
      obtain ⟨hp, hi⟩ := not_or.mp hf
      rw [slotsBy, if_neg hp, Fields.get?_eq_none_iff.mpr hi]
  distinct := by
    refine (List.pairwise_map.mp (ascending_entries c)).imp_of_mem fun {a b} ha hb hab same hs => ?_
    obtain ⟨found, -, hfinds⟩ := h.exists_finds hs
    refine Bool.eq_false_iff.mpr fun hsame => Nat.ne_of_lt hab ?_
    have h₁ := (hfinds a.1).mpr ⟨a.2, mem_entries_iff.mp ha, sameAs_self hs⟩
    have h₂ := (hfinds b.1).mpr ⟨b.2, mem_entries_iff.mp hb, hsame⟩
    exact Option.some.inj (h₁.symm.trans h₂)

theorem consistent_empty (origin : Option Origin) : (empty origin).Consistent :=
  ⟨(bare_empty origin).valid, fun _ => apart_of_slots_eq_nil rfl, fun _ => rfl⟩

/-- **A collection refines a plain list**: from an empty one on, any operations are answered as by a list,
what is read off the collection afterwards is read off the list, and an operation that then fails changes
nothing. -/
theorem refines_runAll (origin : Option Origin) (ops : List Operation)
    (hk : KeepAll (empty origin) ops) :
    let (answers, c) := runAll onCollection ops (empty origin)
    let (expected, r) := runAll onRoll ops .empty
    answers = expected ∧ Refines c r ∧
      ∀ (op : Operation) (f : Failure), op.Keeps c → (op.onCollection c).1 = .error f →
        (op.onCollection c).2 = c := by
  obtain ⟨hanswers, hc, hroll⟩ := (consistent_empty origin).follows_runAll hk
  exact ⟨hanswers, hroll ▸ hc.refines, fun op f hop hf => (hc.follows hop).unchanged f hf⟩

/-- Two rows of one county: the second is edited in place, the first is removed and comes back. -/
def readding : List Operation :=
  let leeds : Member := ⟨0, [("id", .plain (.string "a")), ("county", .plain (.string "york"))]⟩
  let hull : Member := ⟨1, [("id", .plain (.string "b")), ("county", .plain (.string "york"))]⟩
  [.setPrimaryKey "id", .addIndex "county", .add leeds, .add hull,
    .edit 1 fun m => ⟨7, m.entity.set "town" (.plain (.string "Hull"))⟩, .remove leeds, .add leeds]

/-- The row that comes back has a slot of its own. -/
theorem slotsBy_readding :
    (runAll onCollection readding (empty none)).2.slotsBy "county" (.text "york") = .ok [1, 2] := by
  have hk : KeepAll (empty none) readding := by
    refine ⟨trivial, trivial, trivial, trivial, fun m hm => ?_, trivial, trivial, trivial⟩
    cases hm
    refine ⟨fun field hf => ?_, .inr (by decide)⟩
    rcases hf with hf | hf
    · cases hf
      rfl
    · cases List.mem_singleton.mp hf
      rfl
  exact ((refines_runAll none readding hk).2.1.slotsBy_eq _ _).trans rfl

end PathQuery.Collection
