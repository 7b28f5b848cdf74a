import PathQuery.Proofs.Result.Find

/-!
# Proofs/Result/Reshape — rows that change in their slots

Rows are changed in their slots without regard to the keys that they are found by.  A collection is
*reshaped* by a function of slots and rows: the same keys find the same slots, and edits of rows are
again reshapings.
-/

namespace PathQuery.Collection

/-- The collection with every row changed by a function of its slot and itself. -/
def reshape (c : Collection) (r : Nat → Entity → Entity) : Collection :=
  { c with slots := c.slots.mapIdx fun slot => Option.map fun m => { m with entity := r slot m.entity } }

variable {c : Collection} {r r' : Nat → Entity → Entity}

/-! ## What stays -/

@[simp] theorem layout_reshape (r : Nat → Entity → Entity) : (c.reshape r).layout = c.layout := rfl

@[simp] theorem slotsBy_reshape (r : Nat → Entity → Entity) (field : String) (key : IndexKey) :
    (c.reshape r).slotsBy field key = c.slotsBy field key := rfl

theorem member?_reshape (r : Nat → Entity → Entity) (slot : Nat) :
    (c.reshape r).member? slot =
      (c.member? slot).map fun m => { m with entity := r slot m.entity } := by
  simp only [member?, reshape, List.getElem?_mapIdx]
  rcases c.slots[slot]? with _ | _ | _ <;> rfl

@[simp] theorem liveSlots_reshape (r : Nat → Entity → Entity) :
    (c.reshape r).liveSlots = c.liveSlots := by
  rw [liveSlots, liveSlots]
  simp only [member?_reshape, Option.isSome_map]
  rw [reshape, List.length_mapIdx]

/-! ## Equal reshapings -/

theorem reshape_congr (h : ∀ slot m, c.member? slot = some m → r slot m.entity = r' slot m.entity) :
    c.reshape r = c.reshape r' := by
  have hslots : (c.reshape r).slots = (c.reshape r').slots := by
    refine List.ext_getElem? fun s => ?_
    simp only [reshape, List.getElem?_mapIdx]
    rcases hs : c.slots[s]? with _ | _ | m
    · rfl
    · rfl
    · have hm : c.member? s = some m := by rw [member?, hs]; rfl
      simp [h s m hm]
  exact congrArg (fun slots => ({ c with slots } : Collection)) hslots

theorem reshape_self : c.reshape (fun _ e => e) = c := by
  have hslots : (c.reshape fun _ e => e).slots = c.slots := by
    refine List.ext_getElem? fun s => ?_
    simp only [reshape, List.getElem?_mapIdx]
    rcases c.slots[s]? with _ | _ | _ <;> rfl
  exact congrArg (fun slots => ({ c with slots } : Collection)) hslots

/-! ## Changing all rows alike -/

/-- The members of a collection in which all rows were changed alike. -/
theorem members_reshape (g : Entity → Entity) :
    (c.reshape fun _ => g).members = c.members.map fun m => { m with entity := g m.entity } := by
  rw [members_eq, members_eq, List.map_filterMap]
  simp only [member?_reshape]
  rw [reshape, List.length_mapIdx]

theorem rows_reshape (g : Entity → Entity) : (c.reshape fun _ => g).rows = c.rows.map g := by
  simp [rows, members_reshape]

theorem membersBy_reshape (g : Entity → Entity) (field : String) (key : IndexKey) :
    (c.reshape fun _ => g).membersBy field key =
      (c.membersBy field key).map (·.map fun m => { m with entity := g m.entity }) := by
  rw [membersBy, membersBy, slotsBy_reshape]
  cases c.slotsBy field key with
  | error f => rfl
  | ok slots => simp [Except.map, List.map_filterMap, member?_reshape]

/-! ## Edits -/

/-- An edit of a row is a reshaping. -/
theorem editRow_reshape (r : Nat → Entity → Entity) (slot : Nat) (f : Entity → Entity) :
    (c.reshape r).editRow slot f =
      c.reshape fun s e => if s = slot then f (r s e) else r s e := by
  have hslots : ((c.reshape r).editRow slot f).slots =
      (c.reshape fun s e => if s = slot then f (r s e) else r s e).slots := by
    refine List.ext_getElem? fun s => ?_
    simp only [reshape, editRow, edit, List.getElem?_modify, List.getElem?_mapIdx]
    rcases c.slots[s]? with _ | _ | m
    · rfl
    · simp
    · by_cases hs : slot = s
      · simp [hs]
      · simp [hs, Ne.symm hs]
  exact congrArg (fun slots => ({ c with slots } : Collection)) hslots

/-- Edits of the rows in different slots are one reshaping. -/
theorem foldl_editRow_reshape {slots : List Nat} (hn : slots.Nodup) (r : Nat → Entity → Entity)
    (f : Entity → Entity) :
    slots.foldl (fun c slot => c.editRow slot f) (c.reshape r) =
      c.reshape fun s e => if s ∈ slots then f (r s e) else r s e := by
  induction slots generalizing r with
  | nil => simp
  | cons slot rest ih =>
    obtain ⟨hslot, hrest⟩ := List.nodup_cons.mp hn
    rw [List.foldl_cons, editRow_reshape, ih hrest]
    refine reshape_congr fun s m _ => ?_
    by_cases hs : s = slot
    · subst hs
      simp [hslot]
    · simp [hs]

end PathQuery.Collection
