import PathQuery.Graph.Join
import PathQuery.Proofs.Breach
import PathQuery.Proofs.Result.Update

/-!
# Proofs/Result/Safe — collections fail for their rows alone

Adding, removing and finding members may fail for a row that lacks a key.  They keep the layout of a
collection, also where they fail, and a collection is asked only for indexes that it has: the fields by
which members are found are among those that it tracks.  So joining is never a breach (`safe_joining`,
`safe_moveJoined`).
-/

namespace PathQuery

/-- A row lacks a key, or its field has no key. -/
theorem Entity.safe_keyOf (e : Entity) (field : String) : Safe (e.keyOf field) fun _ => True := by
  rw [keyOf]
  split
  · rfl
  · split
    · exact True.intro
    · rfl

namespace Collection

variable {c d hosts related target : Collection} {edge : Navigation} {field : String} {key : IndexKey}

/-! ## Members -/

theorem safe_indexKeys (e : Entity) (fields : List String) :
    Safe (indexKeys e fields) fun keys => keys.length = fields.length := by
  induction fields with
  | nil => exact rfl
  | cons field rest ih =>
    rw [indexKeys]
    exact (e.safe_keyOf field).elim (fun _ hf => hf) fun _ _ => safe_map ih fun keys hlen => congrArg (· + 1) hlen

/-- Adding a member keeps the layout. -/
theorem safe_add (c : Collection) (m : Member) : Safe (c.add m) fun added => added.2.layout = c.layout := by
  have hkeys := safe_indexKeys m.entity c.indexNames
  rw [add]
  split
  · rename_i field _
    refine (m.entity.safe_keyOf field).elim (fun _ hf => hf) fun key _ => ?_
    dsimp only
    split
    · exact rfl
    · exact safe_map hkeys fun _ hlen => layout_append hlen
  · split
    · exact rfl
    · exact safe_map hkeys fun _ hlen => layout_append hlen

theorem safe_addAll (c : Collection) (ms : List Member) :
    Safe (c.addAll ms).1 (fun _ => True) ∧ (c.addAll ms).2.layout = c.layout := by
  induction ms generalizing c with
  | nil => exact ⟨True.intro, rfl⟩
  | cons m rest ih =>
    rw [addAll]
    exact (c.safe_add m).elim (fun _ hf => ⟨hf, rfl⟩) fun added hl => ⟨(ih added.2).1, (ih added.2).2.trans hl⟩

theorem safe_findSlot? (c : Collection) (m : Member) : Safe (c.findSlot? m) fun _ => True := by
  rw [findSlot?]
  split
  · exact safe_map (m.entity.safe_keyOf _) fun _ _ => True.intro
  · exact True.intro

theorem safe_dropKeys (e : Entity) (slot : Nat) (indexes : Fields Index) :
    Safe (dropKeys e slot indexes).1 (fun _ => True) ∧ (dropKeys e slot indexes).2.names = indexes.names := by
  induction indexes with
  | nil => exact ⟨True.intro, rfl⟩
  | cons entry rest ih =>
    obtain ⟨field, index⟩ := entry
    rw [dropKeys]
    exact (e.safe_keyOf field).elim (fun _ hf => ⟨hf, rfl⟩) fun _ _ => ⟨ih.1, congrArg (field :: ·) ih.2⟩

theorem safe_dropPrimary (c : Collection) (e : Entity) :
    Safe (c.dropPrimary e).1 (fun _ => True) ∧ (c.dropPrimary e).2.layout = c.layout := by
  rw [dropPrimary]
  split
  · exact ⟨True.intro, rfl⟩
  · rename_i field _
    exact (e.safe_keyOf field).elim (fun _ hf => ⟨hf, rfl⟩) fun _ _ => ⟨True.intro, rfl⟩

/-- Removing a member keeps the layout, also where it fails. -/
theorem safe_remove (c : Collection) (m : Member) :
    Safe (c.remove m).1 (fun _ => True) ∧ (c.remove m).2.layout = c.layout := by
  rw [remove]
  refine (c.safe_findSlot? m).elim (fun _ hf => ⟨hf, rfl⟩) fun found _ => ?_
  rcases found with _ | slot
  · exact ⟨True.intro, rfl⟩
  · dsimp only
    split
    · exact ⟨True.intro, rfl⟩
    · rename_i stored _
      obtain ⟨hdropped, hnames⟩ := safe_dropKeys stored.entity slot c.indexes
      generalize dropKeys stored.entity slot c.indexes = dropped at hdropped hnames ⊢
      obtain ⟨_ | _, indexes⟩ := dropped
      · exact ⟨hdropped, layout_eq_iff.mpr ⟨rfl, rfl, hnames⟩⟩
      · have hl : layout { c with slots := c.slots.set slot none, indexes } = c.layout :=
          layout_eq_iff.mpr ⟨rfl, rfl, hnames⟩
        obtain ⟨hprimary, hlayout⟩ :=
          safe_dropPrimary { c with slots := c.slots.set slot none, indexes } stored.entity
        dsimp only
        generalize dropPrimary { c with slots := c.slots.set slot none, indexes } stored.entity = left
          at hprimary hlayout ⊢
        obtain ⟨_ | _, d⟩ := left
        · exact ⟨hprimary, hlayout.trans hl⟩
        · exact ⟨True.intro, hlayout.trans hl⟩

/-! ## Finding by keys -/

theorem safe_slotsBy (h : c.Tracks field) (key : IndexKey) : Safe (c.slotsBy field key) fun _ => True := by
  rw [slotsBy]
  split
  · exact True.intro
  · rename_i hp
    obtain ⟨index, hindex⟩ := Option.ne_none_iff_exists'.mp fun hnone =>
      Fields.get?_eq_none_iff.mp hnone (h.resolve_left hp)
    rw [hindex]
    exact True.intro

theorem safe_membersBy (h : c.Tracks field) (key : IndexKey) : Safe (c.membersBy field key) fun _ => True :=
  safe_map (safe_slotsBy h key) fun _ _ => True.intro

theorem safe_keysOf (field : String) (rows : List Entity) : Safe (keysOf field rows) fun _ => True := by
  induction rows with
  | nil => exact True.intro
  | cons e rest ih =>
    rw [keysOf]
    exact (e.safe_keyOf field).elim (fun _ hf => hf) fun _ _ => safe_map ih fun _ _ => True.intro

/-- Distinct values may be asked for in any field. -/
theorem safe_distinctValues (c : Collection) (field : String) : Safe (c.distinctValues field) fun _ => True := by
  refine safe_map (P := fun _ => True) ?_ fun _ _ => True.intro
  rw [distinctKeys]
  split
  · exact safe_keysOf field c.rows
  · split
    · exact True.intro
    · exact safe_map (safe_keysOf field c.rows) fun _ _ => True.intro

/-! ## Joining -/

theorem safe_addJoined (h : hosts.Tracks edge.hostKey) (joined : Collection) (row : Entity) :
    Safe (addJoined edge hosts joined row) fun d => d.layout = joined.layout := by
  refine safe_bind (row.safe_keyOf _) fun key _ => safe_bind (safe_membersBy h key) fun members _ => ?_
  obtain ⟨hsafe, hlayout⟩ := joined.safe_addAll members
  generalize joined.addAll members = added at hsafe hlayout ⊢
  obtain ⟨_ | _, d⟩ := added
  · exact hsafe
  · exact hlayout

/-- **Hosts are narrowed** to those that join with rows of a child. -/
theorem safe_joining (hn : related.navigation = .ok edge) (h : hosts.Tracks edge.hostKey) :
    Safe (hosts.joining related) fun _ => True := by
  rw [joining, hn]
  exact (safe_foldlM (P := fun _ => True) True.intro fun joined _ row _ =>
    (safe_addJoined h joined row).trivial)

/-- A move keeps both layouts. -/
theorem Transfer.safe_move (t : Transfer) (m : Member) : Safe (t.move m) fun t' =>
    t'.source.layout = t.source.layout ∧ t'.target.layout = t.target.layout := by
  refine safe_bind (t.target.safe_add m) fun added hadd => ?_
  obtain ⟨hsafe, hlayout⟩ := t.source.safe_remove m
  generalize t.source.remove m = removed at hsafe hlayout ⊢
  obtain ⟨_ | _, source⟩ := removed
  · exact hsafe
  · exact ⟨hlayout, hadd⟩

/-- **Hosts are moved** where they join with rows of a child. -/
theorem safe_moveJoined (h : hosts.Tracks edge.hostKey) (related target : Collection) :
    Safe (moveJoined edge related hosts target) fun d => d.layout = target.layout := by
  refine safe_map (P := fun t : Transfer => t.source.layout = hosts.layout ∧ t.target.layout = target.layout)
    (safe_foldlM ⟨rfl, rfl⟩ fun t ht row _ => ?_) fun t ht => ht.2
  refine safe_bind (row.safe_keyOf _) fun key _ =>
    safe_bind (safe_membersBy ((tracks_congr ht.1 _).mpr h) key) fun members _ => ?_
  exact safe_foldlM ht fun t' ht' m _ => (t'.safe_move m).imp fun _ hmoved =>
    ⟨hmoved.1.trans ht'.1, hmoved.2.trans ht'.2⟩

end Collection

end PathQuery
