import PathQuery.Graph.Expand
import PathQuery.Proofs.Graph.Join
import PathQuery.Proofs.Result.Reshape

/-!
# Proofs/Graph/Expand — a combination embeds what each host joins with

Embedding changes rows in their slots, by a function of the host: `embedAll` sets under the name of each
edge the rows that the host joins with, or the first of them.  The keys of rows are read through what is
embedded in them, and an embedded field is never a key, so a key that can be read is that of the stored
document (`KeepsKeys`).
-/

namespace PathQuery

namespace Entity

/-- A function of rows whose results have no keys that the rows do not have. -/
def KeepsKeys (g : Entity → Entity) : Prop :=
  ∀ e field key, (g e).keyOf field = .ok key → e.keyOf field = .ok key

/-- A field that holds no stored value. -/
def Embedded (v : FieldValue) : Prop := ∀ w, v ≠ .plain w

theorem keyOf_of_set {e : Entity} {name field : String} {v : FieldValue} {key : IndexKey}
    (hv : Embedded v) (h : keyOf (e.set name v) field = .ok key) : e.keyOf field = .ok key := by
  rw [keyOf, value?, Fields.get?_set] at h
  by_cases hf : field = name
  · rw [if_pos hf] at h
    cases v with
    | plain w => exact absurd rfl (hv w)
    | one related => obtain ⟨⟩ := h
    | many related => obtain ⟨⟩ := h
  · rw [if_neg hf] at h
    exact h

theorem keyOf_set_of_ne {e : Entity} {name field : String} (h : field ≠ name) (v : FieldValue) :
    keyOf (e.set name v) field = e.keyOf field := by
  rw [keyOf, keyOf, value?, value?, Fields.get?_set_of_ne e v h]

/-- Appending to a list is writing the longer list. -/
theorem pushRelated_eq_set (e : Entity) (name : String) (related : Document) :
    e.pushRelated name related =
      e.set name (match e.get? name with
        | some (.many list) => .many (list ++ [related])
        | _ => .many [related]) := by
  induction e with
  | nil => rfl
  | cons field rest ih =>
    obtain ⟨n, v⟩ := field
    by_cases hn : n = name
    · cases v <;> simp [pushRelated, Fields.set, Fields.get?, hn]
    · simpa [pushRelated, Fields.set, Fields.get?, hn] using ih

theorem set_of_get? {e : Entity} {name : String} {v : FieldValue} (h : e.get? name = some v) :
    e.set name v = e := by
  induction e with
  | nil => obtain ⟨⟩ := h
  | cons field rest ih =>
    obtain ⟨n, w⟩ := field
    rw [Fields.get?] at h
    rw [Fields.set]
    split at h
    · rw [if_pos ‹_›, Option.some.inj h]
    · rw [if_neg ‹_›, ih h]

theorem set_set (e : Entity) (name : String) (v w : FieldValue) :
    (e.set name v).set name w = e.set name w := by
  induction e with
  | nil => simp [Fields.set]
  | cons field rest ih =>
    obtain ⟨n, u⟩ := field
    rw [Fields.set]
    by_cases hn : n = name
    · subst hn
      simp [Fields.set]
    · rw [if_neg hn, Fields.set, if_neg hn, Fields.set, if_neg hn]
      exact congrArg _ ih

end Entity

namespace Expand

/-! ## What is embedded in a host -/

/-- The rows at the end of an edge, with what they become before they are embedded. -/
structure Branch where
  edge : Navigation
  rows : List Entity
  shape : Entity → Entity

/-- The documents that a host joins with, as they are embedded. -/
def Branch.related (b : Branch) (host : Entity) : List Document :=
  (b.rows.filter (b.edge.joins host)).map fun row => (b.shape row).toDocument

/-- The field for some documents: the first of them at a scalar edge, all of them at a collection edge. -/
def fieldFor (edge : Navigation) (documents : List Document) : FieldValue :=
  if edge.isScalar then .one documents.head? else .many documents

/-- The field that a host has for the rows that it joins with. -/
def Branch.field (b : Branch) (host : Entity) : FieldValue :=
  if b.edge.isScalar then .one (b.related host).head? else .many (b.related host)

/-- A host with the rows that it joins with embedded in it, those of the last branch first. -/
def embedAll (branches : List Branch) (host : Entity) : Entity :=
  branches.foldr (fun b e => e.set b.edge.name (b.field host)) host

theorem embedded_fieldFor (edge : Navigation) (documents : List Document) :
    Entity.Embedded (fieldFor edge documents) := by
  intro w
  rw [fieldFor]
  split <;> rintro ⟨⟩

theorem embedded_field (b : Branch) (host : Entity) : Entity.Embedded (b.field host) :=
  embedded_fieldFor b.edge (b.related host)

theorem keepsKeys_foldr (branches : List Branch) {g : Entity → Entity} (hg : Entity.KeepsKeys g) :
    Entity.KeepsKeys fun e => branches.foldr (fun b e' => e'.set b.edge.name (b.field e)) (g e) := by
  intro e field key h
  refine hg e field key ?_
  induction branches with
  | nil => exact h
  | cons b rest ih => exact ih (Entity.keyOf_of_set (embedded_field b e) h)

theorem keepsKeys_embedAll (branches : List Branch) : Entity.KeepsKeys (embedAll branches) :=
  keepsKeys_foldr branches fun _ _ _ h => h

/-- A row with the fields of a host for some branches set in it, those of the last branch first. -/
def embedOnto (branches : List Branch) (host start : Entity) : Entity :=
  branches.foldr (fun b e => e.set b.edge.name (b.field host)) start

theorem get?_embedOnto {branches : List Branch}
    (hd : branches.Pairwise fun a b => a.edge.name ≠ b.edge.name) {b : Branch} (hb : b ∈ branches)
    (host start : Entity) : (embedOnto branches host start).get? b.edge.name = some (b.field host) := by
  induction branches with
  | nil => obtain ⟨⟩ := hb
  | cons first rest ih =>
    obtain ⟨hfirst, hrest⟩ := List.pairwise_cons.mp hd
    rw [embedOnto, List.foldr_cons]
    rcases List.mem_cons.mp hb with rfl | hb
    · exact Fields.get?_set_self _ _ _
    · rw [Fields.get?_set_of_ne _ _ (hfirst b hb).symm]
      exact ih hrest hb

theorem get?_embedOnto_of_ne {branches : List Branch} {name : String}
    (hn : ∀ b ∈ branches, b.edge.name ≠ name) (host start : Entity) :
    (embedOnto branches host start).get? name = start.get? name := by
  induction branches with
  | nil => rfl
  | cons first rest ih =>
    rw [embedOnto, List.foldr_cons, Fields.get?_set_of_ne _ _ (hn first (.head _)).symm]
    exact ih fun b hb => hn b (.tail _ hb)

/-- Under the name of an edge stands the field of its branch. -/
theorem get?_embedAll {branches : List Branch}
    (hd : branches.Pairwise fun a b => a.edge.name ≠ b.edge.name) {b : Branch} (hb : b ∈ branches)
    (host : Entity) : (embedAll branches host).get? b.edge.name = some (b.field host) :=
  get?_embedOnto hd hb host host

/-- Other fields are those of the host. -/
theorem get?_embedAll_of_ne {branches : List Branch} {name : String}
    (hn : ∀ b ∈ branches, b.edge.name ≠ name) (host : Entity) :
    (embedAll branches host).get? name = host.get? name :=
  get?_embedOnto_of_ne hn host host

/-- The documents that a host holds under the name of an edge already, and keeps there. -/
def held (edge : Navigation) (host : Entity) : List Document :=
  match edge.isScalar, host.get? edge.name with
  | true, some (.one (some d)) => [d]
  | false, some (.many documents) => documents
  | _, _ => []

/-- A stored value is not kept. -/
theorem held_of_plain {edge : Navigation} {host : Entity}
    (h : ∀ v, host.get? edge.name = some v → ∃ w, v = .plain w) : held edge host = [] := by
  rw [held]
  cases hg : host.get? edge.name with
  | none => cases edge.isScalar <;> rfl
  | some v =>
    obtain ⟨w, rfl⟩ := h v hg
    cases edge.isScalar <;> rfl

/-- The field that a host has for the last branch: what it held comes first. -/
def Branch.lastField (b : Branch) (host : Entity) : FieldValue :=
  fieldFor b.edge (held b.edge host ++ b.related host)

theorem Branch.lastField_of_held {b : Branch} {host : Entity} (h : held b.edge host = []) :
    b.lastField host = b.field host := by
  rw [lastField, h]
  rfl

/-- A host with the rows that it joins with embedded in it, those of a last branch after what it held. -/
def embedWith (init : List Branch) (last : Branch) (host : Entity) : Entity :=
  embedOnto init host (host.set last.edge.name (last.lastField host))

theorem embedWith_of_held {init : List Branch} {last : Branch} {host : Entity}
    (h : held last.edge host = []) : embedWith init last host = embedAll (init ++ [last]) host := by
  rw [embedWith, Branch.lastField_of_held h, embedAll, List.foldr_append]
  rfl

/-! ## Embedding the last child -/

/-- Embedding a document is writing it after what is held. -/
theorem embed_eq (edge : Navigation) (d : Document) (host : Entity) :
    embed edge d host = host.set edge.name (fieldFor edge (held edge host ++ [d])) := by
  rw [embed, Entity.pushRelated_eq_set, fieldFor, held]
  cases hs : edge.isScalar with
  | false =>
    rcases hg : host.get? edge.name with _ | _ | _ | list <;> rfl
  | true =>
    rcases hg : host.get? edge.name with _ | _ | (_ | held) | list
    · rfl
    · rfl
    · rfl
    · exact (Entity.set_of_get? hg).symm
    · rfl

/-- What was written is held. -/
theorem held_set (edge : Navigation) (documents : List Document) (host : Entity) :
    held edge (host.set edge.name (fieldFor edge documents)) =
      if edge.isScalar then documents.head?.toList else documents := by
  rw [held, Fields.get?_set_self, fieldFor]
  cases edge.isScalar with
  | false => rfl
  | true => cases documents <;> rfl

/-- Embedding some documents one after the other is writing them after what is held. -/
theorem foldl_embed_held {edge : Navigation} {docs : List Document} (hne : docs ≠ []) (host : Entity) :
    docs.foldl (fun e d => embed edge d e) host =
      host.set edge.name (fieldFor edge (held edge host ++ docs)) := by
  induction docs using List.reverseRecOn with
  | nil => exact absurd rfl hne
  | append_singleton rest d ih =>
    rw [List.foldl_append, List.foldl_cons, List.foldl_nil, embed_eq]
    rcases rest with _ | ⟨first, rest⟩
    · rfl
    · rw [ih (List.cons_ne_nil _ _), held_set, Entity.set_set, ← List.append_assoc]
      refine congrArg _ ?_
      rw [fieldFor, fieldFor]
      cases edge.isScalar with
      | false => rfl
      | true => cases held edge host <;> rfl

variable {edge : Navigation} {joined c : Collection} {g : Entity → Entity}

theorem embedLast_eq (hv : joined.Valid) {related : Entity}
    (h : embedLast edge (joined.reshape fun _ => g) related = .ok c) :
    related.IsKeyed edge.relatedKey ∧ c = joined.reshape fun _ e =>
      if edge.joins e related then embed edge related.toDocument (g e) else g e := by
  obtain ⟨key, hk, h⟩ := bind_eq_ok.mp h
  obtain ⟨slots, hs, h⟩ := bind_eq_ok.mp h
  rw [Collection.slotsBy_reshape] at hs
  rw [hv.slotsBy_eq (Collection.tracks_of_slotsBy hs)] at hs
  cases hs
  refine ⟨⟨key, hk⟩, (Except.ok.inj h).symm.trans ?_⟩
  rw [Collection.foldl_editRow_reshape (Collection.nodup_slotsWith joined edge.hostKey key)]
  refine Collection.reshape_congr fun s m hm => ?_
  have hiff : s ∈ joined.slotsWith edge.hostKey key ↔ edge.joins m.entity related = true := by
    rw [Collection.mem_slotsWith, Navigation.joins_eq_hasKey hk, Entity.hasKey_iff, hm]
    simp
  by_cases hj : edge.joins m.entity related = true
  · rw [if_pos (hiff.mpr hj), if_pos hj]
  · rw [if_neg fun hs => hj (hiff.mp hs), if_neg hj]

theorem foldlM_embedLast_eq (hv : joined.Valid) {rows : List Entity}
    (h : rows.foldlM (embedLast edge) (joined.reshape fun _ => g) = .ok c) :
    (∀ row ∈ rows, row.IsKeyed edge.relatedKey) ∧ c = joined.reshape fun _ e =>
      ((rows.filter (edge.joins e)).map (·.toDocument)).foldl (fun e d => embed edge d e) (g e) := by
  induction rows generalizing g with
  | nil => cases h; exact ⟨by simp, rfl⟩
  | cons row rest ih =>
    obtain ⟨c₁, hrow, h⟩ := foldlM_cons_eq_ok.mp h
    obtain ⟨hkeyed, rfl⟩ := embedLast_eq hv hrow
    obtain ⟨hrest, rfl⟩ := ih h
    refine ⟨fun r hr => ?_, Collection.reshape_congr fun s m _ => ?_⟩
    · rcases List.mem_cons.mp hr with rfl | hr
      · exact hkeyed
      · exact hrest r hr
    · rw [List.filter_cons]
      split <;> rfl

/-! ## Embedding the other children -/

/-- The results of a child, as a branch: valid rows, found by their keys, that were changed since. -/
structure Branch.Shapes (b : Branch) (child : Collection) : Prop where
  navigation : child.navigation = .ok b.edge
  keeps : Entity.KeepsKeys b.shape
  shaped : ∃ v : Collection, v.Valid ∧ v.rows = b.rows ∧ child = v.reshape fun _ => b.shape

variable {b : Branch} {child : Collection}

/-- The members that are found for a host are those that join with it. -/
theorem fieldOf_eq (hb : b.Shapes child) {key : IndexKey} {host : Entity} {related : List Member}
    (hk : host.keyOf b.edge.hostKey = .ok key)
    (h : child.membersBy b.edge.relatedKey key = .ok related) :
    fieldOf b.edge related = b.field host := by
  obtain ⟨v, hv, hrows, rfl⟩ := hb.shaped
  rw [Collection.membersBy_reshape] at h
  obtain ⟨found, hf, rfl⟩ := map_eq_ok.mp h
  obtain ⟨-, rfl⟩ := hv.eq_of_membersBy hf
  have hdocs : b.related host =
      (v.members.filter (·.entity.hasKey b.edge.relatedKey key)).map
        fun m => (b.shape m.entity).toDocument := by
    rw [Branch.related, ← hrows, Collection.rows, List.filter_map, List.map_map]
    refine congrArg _ (List.filter_congr fun m _ => ?_)
    rw [Function.comp_apply, Bool.eq_iff_iff, Navigation.joins_iff, Entity.hasKey_iff, hk]
    grind
  rw [fieldOf, Branch.field, hdocs, List.map_map]
  rfl

/-- A change of the row at one slot, which gets the field of its host. -/
def Branch.embedAt (b : Branch) (slot : Nat) (r : Nat → Entity → Entity) : Nat → Entity → Entity := fun s e =>
  if s = slot then (r s e).set b.edge.name (b.field e) else r s e

variable {r : Nat → Entity → Entity} {slot : Nat}

theorem keepsKeys_embedAt (b : Branch) (hr : ∀ s, Entity.KeepsKeys (r s)) (s : Nat) :
    Entity.KeepsKeys (b.embedAt slot r s) := by
  intro e field key hk
  rw [Branch.embedAt] at hk
  split at hk
  · exact hr s e field key (Entity.keyOf_of_set (embedded_field b e) hk)
  · exact hr s e field key hk

theorem embedSlot_eq (hb : b.Shapes child) (hr : ∀ s, Entity.KeepsKeys (r s))
    (h : embedSlot b.edge child (joined.reshape r) slot = .ok c) : c = joined.reshape (b.embedAt slot r) := by
  rw [embedSlot, Collection.member?_reshape] at h
  cases hm : joined.member? slot with
  | none =>
    rw [hm] at h
    refine (Except.ok.inj h).symm.trans (Collection.reshape_congr fun s m hs => ?_)
    have hne : s ≠ slot := by
      rintro rfl
      obtain ⟨⟩ := hm.symm.trans hs
    exact (if_neg hne).symm
  | some m =>
    rw [hm] at h
    obtain ⟨key, hk, h⟩ := bind_eq_ok.mp h
    obtain ⟨related, hrel, h⟩ := bind_eq_ok.mp h
    have hfield := fieldOf_eq hb (hr slot _ _ _ hk) hrel
    refine (Except.ok.inj h).symm.trans ?_
    rw [Collection.editRow_reshape]
    refine Collection.reshape_congr fun s n hs => ?_
    by_cases he : s = slot
    · subst he
      cases hm.symm.trans hs
      rw [if_pos rfl, hfield]
      exact (if_pos rfl).symm
    · rw [if_neg he]
      exact (if_neg he).symm

theorem foldlM_embedSlot_eq (hb : b.Shapes child) {slots : List Nat} (hn : slots.Nodup)
    (hr : ∀ s, Entity.KeepsKeys (r s))
    (h : slots.foldlM (embedSlot b.edge child) (joined.reshape r) = .ok c) :
    c = joined.reshape fun s e => if s ∈ slots then (r s e).set b.edge.name (b.field e) else r s e := by
  induction slots generalizing r with
  | nil => cases h; simp
  | cons slot rest ih =>
    obtain ⟨hslot, hrest⟩ := List.nodup_cons.mp hn
    obtain ⟨c₁, hfirst, h⟩ := foldlM_cons_eq_ok.mp h
    rw [embedSlot_eq hb hr hfirst] at h
    rw [ih hrest (keepsKeys_embedAt b hr) h]
    refine Collection.reshape_congr fun s m _ => ?_
    by_cases he : s = slot
    · subst he
      simp [hslot, Branch.embedAt]
    · simp [he, Branch.embedAt]

theorem embedChild_eq (hb : b.Shapes child) (hg : Entity.KeepsKeys g)
    (h : embedChild (joined.reshape fun _ => g) child = .ok c) :
    c = joined.reshape fun _ e => (g e).set b.edge.name (b.field e) := by
  obtain ⟨edge, he, h⟩ := bind_eq_ok.mp h
  cases hb.navigation.symm.trans he
  rw [Collection.liveSlots_reshape] at h
  have hn : joined.liveSlots.Nodup := List.nodup_range.filter _
  rw [foldlM_embedSlot_eq hb hn (fun _ => hg) h]
  refine Collection.reshape_congr fun s m hm => if_pos ?_
  rw [Collection.liveSlots, List.mem_filter, List.mem_range]
  exact ⟨Collection.lt_length_of_member? hm, by rw [hm]; rfl⟩

theorem foldlM_embedChild_eq {children : List Collection} {branches : List Branch}
    (hb : List.Forall₂ (fun child b => b.Shapes child) children branches) (hg : Entity.KeepsKeys g)
    (h : children.reverse.foldlM embedChild (joined.reshape fun _ => g) = .ok c) :
    c = joined.reshape fun _ e =>
      branches.foldr (fun b e' => e'.set b.edge.name (b.field e)) (g e) := by
  induction hb generalizing c with
  | nil => cases h; rfl
  | cons hchild _ ih =>
    rw [List.reverse_cons, List.foldlM_append] at h
    obtain ⟨c₁, hrest, h⟩ := bind_eq_ok.mp h
    obtain ⟨c₂, hfirst, h⟩ := foldlM_cons_eq_ok.mp h
    cases h
    rw [ih hrest] at hfirst
    rw [embedChild_eq hchild (keepsKeys_foldr _ hg) hfirst]
    rfl

/-! ## The combination -/

theorem taken_map {edge : Navigation} {g : Entity → Entity} (hg : Entity.KeepsKeys g)
    {rows : List Entity} (hk : ∀ row ∈ rows, (g row).IsKeyed edge.relatedKey)
    (ms : List Member) :
    Collection.taken edge (rows.map g) ms = Collection.taken edge rows ms := by
  induction rows generalizing ms with
  | nil => rfl
  | cons row rest ih =>
    have hjoins : ∀ host, edge.joins host (g row) = edge.joins host row := by
      intro host
      obtain ⟨key, hkey⟩ := hk row (.head _)
      rw [Navigation.joins_eq_hasKey hkey, Navigation.joins_eq_hasKey (hg _ _ _ hkey)]
    simp only [List.map_cons, Collection.taken, hjoins]
    rw [ih fun r hr => hk r (.tail _ hr)]

theorem forall₂_concat {α β : Type} {R : α → β → Prop} {init : List α} {last : α} {l : List β}
    (h : List.Forall₂ R (init ++ [last]) l) :
    ∃ init' last', List.Forall₂ R init init' ∧ R last last' ∧ l = init' ++ [last'] := by
  induction init generalizing l with
  | nil =>
    obtain ⟨b, rest, hb, hrest, rfl⟩ := List.forall₂_cons_left_iff.mp h
    cases hrest
    exact ⟨[], b, .nil, hb, rfl⟩
  | cons a init ih =>
    obtain ⟨b, rest, hb, hrest, rfl⟩ := List.forall₂_cons_left_iff.mp h
    obtain ⟨init', last', hinit, hlast, rfl⟩ := ih hrest
    exact ⟨b :: init', last', .cons hb hinit, hlast, rfl⟩

/-- The last child's rows are embedded in the hosts that were taken for them. -/
theorem embedLast_taken {hosts : List Member} {last : Collection} (hv : joined.Valid)
    (hb : b.Shapes last) (hmem : joined.members = Collection.taken b.edge last.rows hosts)
    (h : last.rows.foldlM (embedLast b.edge) joined = .ok c) :
    joined.members = Collection.taken b.edge b.rows hosts ∧
      c = joined.reshape fun _ e => e.set b.edge.name (b.lastField e) := by
  obtain ⟨v, hvv, hrows, rfl⟩ := hb.shaped
  rw [Collection.rows_reshape, hrows] at h hmem
  rw [← Collection.reshape_self (c := joined)] at h
  obtain ⟨hkeyed, rfl⟩ := foldlM_embedLast_eq hv h
  have hk : ∀ row ∈ b.rows, (b.shape row).IsKeyed b.edge.relatedKey := fun row hr =>
    hkeyed _ (List.mem_map_of_mem hr)
  rw [taken_map hb.keeps hk] at hmem
  refine ⟨hmem, Collection.reshape_congr fun s m hm => ?_⟩
  obtain ⟨hhost, row, hr, hj⟩ := Collection.mem_taken.mp
    (hmem ▸ Collection.mem_members_iff.mpr ⟨s, hm⟩ : m ∈ Collection.taken b.edge b.rows hosts)
  have hdocs : (((b.rows.map b.shape).filter (b.edge.joins m.entity)).map (·.toDocument)) =
      b.related m.entity := by
    rw [List.filter_map, List.map_map, Branch.related]
    refine congrArg _ (List.filter_congr fun row hr => ?_)
    obtain ⟨key, hkey⟩ := hk row hr
    rw [Function.comp_apply, Navigation.joins_eq_hasKey hkey,
      Navigation.joins_eq_hasKey (hb.keeps _ _ _ hkey)]
  rw [hdocs]
  refine foldl_embed_held (fun hnil => ?_) m.entity
  have := List.filter_eq_nil_iff.mp (List.map_eq_nil_iff.mp hnil) row hr
  exact this hj

/-- **A combination embeds in each host that joins with the last child what it joins with**, after what the
host held for the last child. -/
theorem combine_eq_embedWith {results : Collection} {children : List Collection} {branches : List Branch}
    (hb : List.Forall₂ (fun child b => b.Shapes child) children branches) (hne : children ≠ [])
    (hv : results.Valid) (ha : results.Apart) (h : combine results children = .ok c) :
    ∃ (init : List Branch) (last : Branch) (joined : Collection), branches = init ++ [last] ∧
      joined.Valid ∧ joined.layout = results.layout ∧
      joined.members = Collection.taken last.edge last.rows results.members ∧
      c = joined.reshape fun _ => embedWith init last := by
  obtain ⟨init, last, rfl⟩ : ∃ init last, children = init ++ [last] :=
    ⟨_, _, (List.dropLast_append_getLast hne).symm⟩
  obtain ⟨bs, bl, hinit, hlast, rfl⟩ := forall₂_concat hb
  rw [combine, List.getLast?_concat] at h
  obtain ⟨edge, he, h⟩ := bind_eq_ok.mp h
  cases hlast.navigation.symm.trans he
  obtain ⟨joined, hjoined, h⟩ := bind_eq_ok.mp h
  obtain ⟨embedded, hembed, h⟩ := bind_eq_ok.mp h
  obtain ⟨hvj, -, hl, hmem⟩ :=
    Collection.members_moveJoined hv ha (Collection.target_emptyLike hv) hjoined
  obtain ⟨hmem, rfl⟩ := embedLast_taken hvj hlast hmem hembed
  have hkeeps : Entity.KeepsKeys fun e => e.set bl.edge.name (bl.lastField e) :=
    fun e _ _ hk => Entity.keyOf_of_set (embedded_fieldFor _ _) hk
  rw [List.dropLast_concat] at h
  refine ⟨bs, bl, joined, rfl, hvj, hl.trans (Collection.layout_emptyLike results), hmem, ?_⟩
  rw [foldlM_embedChild_eq hinit hkeeps h]
  rfl

/-- **A combination embeds in each host that joins with the last child what it joins with.** -/
theorem combine_eq {results : Collection} {children : List Collection} {branches : List Branch}
    (hb : List.Forall₂ (fun child b => b.Shapes child) children branches) (hne : children ≠ [])
    (hv : results.Valid) (ha : results.Apart)
    (hplain : ∀ m ∈ results.members, ∀ name v, m.entity.get? name = some v → ∃ w, v = .plain w)
    (h : combine results children = .ok c) :
    ∃ (last : Branch) (joined : Collection), branches.getLast? = some last ∧ joined.Valid ∧
      joined.layout = results.layout ∧
      joined.members = Collection.taken last.edge last.rows results.members ∧
      c = joined.reshape fun _ => embedAll branches := by
  obtain ⟨init, last, joined, rfl, hvj, hl, hmem, rfl⟩ := combine_eq_embedWith hb hne hv ha h
  refine ⟨last, joined, List.getLast?_concat, hvj, hl, hmem, Collection.reshape_congr fun s m hm => ?_⟩
  have htaken : m ∈ Collection.taken last.edge last.rows results.members :=
    hmem ▸ Collection.mem_members_iff.mpr ⟨s, hm⟩
  exact embedWith_of_held (held_of_plain (hplain m (Collection.mem_taken.mp htaken).1 last.edge.name))

end Expand

end PathQuery
