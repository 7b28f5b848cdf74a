import PathQuery.Proofs.Graph.Expand
import PathQuery.Proofs.Result.Refinement

/-!
# Proofs/Graph/NestedLoop — an expansion is a nested loop over hosts and rows

For every host the rows of each child are gone over, and those that join with the host are embedded in it.
The hosts are those that join with the last child, each once.  Where the rows of both sides are found by the
edges' keys, and no embedded field is such a key, nothing fails on the way (`exists_combine`).  The rows of the
last child come after what a host holds under their name already, and those of the other children take its
place (`get?_nested_last`, `get?_nested`).
-/

namespace PathQuery.Expand

open Collection (Attached byFirst)

variable {hosts child joined combined c : Collection} {edge : Navigation} {g : Entity → Entity}

/-! ## Embedding does not fail where keys are there -/

theorem exists_embedLast (hv : joined.Valid) (ht : joined.Tracks edge.hostKey) {related : Entity}
    (hk : related.IsKeyed edge.relatedKey) :
    ∃ c, embedLast edge (joined.reshape fun _ => g) related = .ok c := by
  obtain ⟨key, hkey⟩ := hk
  rw [embedLast, hkey]
  simp only [bind, Except.bind, Collection.slotsBy_reshape, hv.slotsBy_eq ht]
  exact ⟨_, rfl⟩

theorem exists_foldlM_embedLast (hv : joined.Valid) (ht : joined.Tracks edge.hostKey) {rows : List Entity}
    (hk : ∀ row ∈ rows, row.IsKeyed edge.relatedKey) :
    ∃ c, rows.foldlM (embedLast edge) (joined.reshape fun _ => g) = .ok c := by
  induction rows generalizing g with
  | nil => exact ⟨_, rfl⟩
  | cons row rest ih =>
    obtain ⟨c₁, hrow⟩ := exists_embedLast (g := g) hv ht (hk row (.head _))
    obtain ⟨-, rfl⟩ := embedLast_eq hv hrow
    obtain ⟨c, hc⟩ := ih fun r hr => hk r (.tail _ hr)
    exact ⟨c, foldlM_cons_eq_ok.mpr ⟨_, hrow, hc⟩⟩

/-- All members have a key in a field. -/
def Keyed (c : Collection) (field : String) : Prop := ∀ m ∈ c.members, m.entity.IsKeyed field

/-- Embedding in a slot leaves the keys in other fields. -/
theorem exists_embedSlot (hj : Attached hosts child edge) (hk : Keyed combined edge.hostKey) (slot : Nat) :
    ∃ c, embedSlot edge child combined slot = .ok c ∧
      ∀ field, field ≠ edge.name → Keyed combined field → Keyed c field := by
  cases hm : combined.member? slot with
  | none => exact ⟨combined, by rw [embedSlot, hm], fun _ _ h => h⟩
  | some host =>
    obtain ⟨key, hkey⟩ := hk host (Collection.mem_members_iff.mpr ⟨slot, hm⟩)
    rw [embedSlot, hm]
    simp only [hkey, bind, Except.bind, hj.valid.membersBy_eq hj.related key]
    refine ⟨_, rfl, fun field hne hf n hn => ?_⟩
    obtain ⟨s, hs⟩ := Collection.mem_members_iff.mp hn
    obtain ⟨m, hms, rfl⟩ := Collection.exists_of_member?_edit hs
    have hkeyed := hf m (Collection.mem_members_iff.mpr ⟨s, hms⟩)
    split
    · rwa [Entity.IsKeyed, Entity.keyOf_set_of_ne hne]
    · exact hkeyed

theorem exists_foldlM_embedSlot (hj : Attached hosts child edge) (hne : edge.hostKey ≠ edge.name)
    (hk : Keyed combined edge.hostKey) (slots : List Nat) :
    ∃ c, slots.foldlM (embedSlot edge child) combined = .ok c ∧
      ∀ field, field ≠ edge.name → Keyed combined field → Keyed c field := by
  induction slots generalizing combined with
  | nil => exact ⟨combined, rfl, fun _ _ h => h⟩
  | cons slot rest ih =>
    obtain ⟨c₁, hfirst, hkeep⟩ := exists_embedSlot hj hk slot
    obtain ⟨c, hc, hkeep'⟩ := ih (hkeep _ hne hk)
    exact ⟨c, foldlM_cons_eq_ok.mpr ⟨c₁, hfirst, hc⟩, fun field hf h => hkeep' field hf (hkeep field hf h)⟩

theorem exists_embedChild (hj : Attached hosts child edge) (hne : edge.hostKey ≠ edge.name)
    (hk : Keyed combined edge.hostKey) :
    ∃ c, embedChild combined child = .ok c ∧
      ∀ field, field ≠ edge.name → Keyed combined field → Keyed c field := by
  rw [embedChild, hj.navigation]
  exact exists_foldlM_embedSlot hj hne hk _

theorem exists_foldlM_embedChild {branches : List (Collection × Navigation)}
    (hj : ∀ b ∈ branches, Attached hosts b.1 b.2)
    (hne : ∀ a ∈ branches, ∀ b ∈ branches, a.2.name ≠ b.2.hostKey)
    (hk : ∀ b ∈ branches, Keyed combined b.2.hostKey) :
    ∃ c, (branches.map (·.1)).foldlM embedChild combined = .ok c := by
  induction branches generalizing combined with
  | nil => exact ⟨combined, rfl⟩
  | cons b rest ih =>
    obtain ⟨c₁, hfirst, hkeep⟩ :=
      exists_embedChild (hj b (.head _)) (hne b (.head _) b (.head _)).symm (hk b (.head _))
    obtain ⟨c, hc⟩ := ih (fun d hd => hj d (.tail _ hd)) (fun a ha d hd => hne a (.tail _ ha) d (.tail _ hd))
      fun d hd => hkeep _ (hne b (.head _) d (.tail _ hd)).symm (hk d (.tail _ hd))
    exact ⟨c, foldlM_cons_eq_ok.mpr ⟨c₁, hfirst, hc⟩⟩

/-! ## The nested loop -/

/-- The results of a child as they are, at the end of their edge. -/
def branchOf (b : Collection × Navigation) : Branch := ⟨b.2, b.1.rows, id⟩

theorem shapes_branchOf {b : Collection × Navigation} (h : Attached hosts b.1 b.2) :
    (branchOf b).Shapes b.1 :=
  ⟨h.navigation, fun _ _ _ hk => hk, b.1, h.valid, rfl, Collection.reshape_self.symm⟩

/-- The rows of a child that join with a host, in the order of the child. -/
def related (b : Collection × Navigation) (host : Entity) : List Document :=
  (b.1.rows.filter (b.2.joins host)).map (·.toDocument)

theorem field_branchOf (b : Collection × Navigation) (host : Entity) :
    (branchOf b).field host = fieldFor b.2 (related b host) := rfl

/-- A host with the rows of some children and of a last one embedded in it. -/
def nested (init : List (Collection × Navigation)) (last : Collection × Navigation) : Entity → Entity :=
  embedWith (init.map branchOf) (branchOf last)

section Fields

variable {init : List (Collection × Navigation)} {last : Collection × Navigation}
  (hd : (init ++ [last]).Pairwise fun a b => a.2.name ≠ b.2.name) (host : Entity)
include hd

/-- Under the name of a child that is not the last stand the rows that join with the host, and no others. -/
theorem get?_nested {b : Collection × Navigation} (hb : b ∈ init) :
    (nested init last host).get? b.2.name = some (fieldFor b.2 (related b host)) := by
  rw [← field_branchOf]
  exact get?_embedOnto (List.pairwise_map.mpr (List.pairwise_append.mp hd).1) (List.mem_map_of_mem hb) host _

/-- Under the name of the last child they stand after what the host holds there. -/
theorem get?_nested_last : (nested init last host).get? last.2.name =
    some (fieldFor last.2 (held last.2 host ++ related last host)) := by
  refine (get?_embedOnto_of_ne (fun b hb => ?_) host _).trans (Fields.get?_set_self _ _ _)
  obtain ⟨d, hd', rfl⟩ := List.mem_map.mp hb
  exact (List.pairwise_append.mp hd).2.2 d hd' last (.head _)

omit hd in
/-- The other fields are those of the host. -/
theorem get?_nested_of_ne {name : String} (hn : ∀ b ∈ init ++ [last], b.2.name ≠ name) :
    (nested init last host).get? name = host.get? name := by
  refine (get?_embedOnto_of_ne (fun b hb => ?_) host _).trans
    (Fields.get?_set_of_ne _ _ (hn last (List.mem_append_right _ (.head _))).symm)
  obtain ⟨d, hd, rfl⟩ := List.mem_map.mp hb
  exact hn d (List.mem_append_left _ hd)

end Fields

section NestedLoop

variable {init : List (Collection × Navigation)} {last : Collection × Navigation}
  (hv : hosts.Valid) (ha : hosts.Apart) (hj : ∀ b ∈ init ++ [last], Attached hosts b.1 b.2)
  (hk : ∀ a ∈ init ++ [last], ∀ b ∈ init ++ [last], a.2.name ≠ b.2.hostKey)
include hv ha hj hk

/-- **A combination does not fail** where both sides of every edge have their keys. -/
theorem exists_combine : ∃ c, combine hosts ((init ++ [last]).map (·.1)) = .ok c := by
  have hmem : last ∈ init ++ [last] := List.mem_append_right _ (.head _)
  have hl := hj last hmem
  obtain ⟨joined, hjoined⟩ := Collection.exists_moveJoined hv ha (Collection.target_emptyLike hv) hl.host
    hl.isKeyed_related
  obtain ⟨hvj, -, hlj, hmj⟩ := Collection.members_moveJoined hv ha (Collection.target_emptyLike hv) hjoined
  have ht : joined.Tracks last.2.hostKey :=
    (Collection.tracks_congr (hlj.trans (Collection.layout_emptyLike hosts)) _).mpr hl.host
  obtain ⟨embedded, hembed⟩ := exists_foldlM_embedLast (g := id) hvj ht hl.isKeyed_related
  rw [show (joined.reshape fun _ => id) = joined from Collection.reshape_self] at hembed
  obtain ⟨-, rfl⟩ := embedLast_taken hvj (shapes_branchOf hl) hmj hembed
  -- a host has its keys still, since none of them is the name of an edge
  have hkeyed : ∀ b ∈ init.reverse, Keyed (joined.reshape fun _ e =>
      e.set last.2.name ((branchOf last).lastField e)) b.2.hostKey := by
    intro b hb n hn
    have hb : b ∈ init ++ [last] := List.mem_append_left _ (List.mem_reverse.mp hb)
    rw [Collection.members_reshape] at hn
    obtain ⟨m, hm, rfl⟩ := List.mem_map.mp hn
    rw [Entity.IsKeyed, Entity.keyOf_set_of_ne (hk last hmem b hb).symm]
    exact hv.keyed _ (hj b hb).host m (Collection.mem_taken.mp (hmj ▸ hm)).1
  obtain ⟨c, hc⟩ := exists_foldlM_embedChild
    (fun b hb => hj b (List.mem_append_left _ (List.mem_reverse.mp hb)))
    (fun a ha b hb => hk a (List.mem_append_left _ (List.mem_reverse.mp ha)) b
      (List.mem_append_left _ (List.mem_reverse.mp hb))) hkeyed
  refine ⟨c, ?_⟩
  rw [List.map_append, List.map_singleton, combine, List.getLast?_concat, List.dropLast_concat]
  simp only [hl.navigation, bind, Except.bind, hjoined]
  rw [← List.map_reverse]
  simp only [branchOf] at hembed
  rw [hembed]
  exact hc

/-- **An expansion is a nested loop**: the hosts that join with some row of the last child, each once, in the
order of the first such row and then their own.  Under the name of each edge stand the rows that join with
the host, the first of them at a scalar edge; its other fields are as they were.  What a host holds embedded
under the name of the last edge, which is nothing in a host of stored values, comes first there. -/
theorem combine_eq_nestedLoop (hd : (init ++ [last]).Pairwise fun a b => a.2.name ≠ b.2.name) :
    combine hosts [] = .ok hosts ∧
    ∃ c, combine hosts ((init ++ [last]).map (·.1)) = .ok c ∧ c.layout = hosts.layout ∧
      c.members = (byFirst last.2 last.1.rows hosts.members).map
        (fun m => { m with entity := nested init last m.entity }) ∧
      (byFirst last.2 last.1.rows hosts.members).Perm
        (hosts.members.filter fun m => last.1.rows.any (last.2.joins m.entity)) ∧
      ∀ host,
        (∀ b ∈ init, (nested init last host).get? b.2.name = some (fieldFor b.2 (related b host))) ∧
        (nested init last host).get? last.2.name =
          some (fieldFor last.2 (held last.2 host ++ related last host)) ∧
        ((∀ v, host.get? last.2.name = some v → ∃ w, v = .plain w) → held last.2 host = []) ∧
        ∀ name, (∀ b ∈ init ++ [last], b.2.name ≠ name) →
          (nested init last host).get? name = host.get? name := by
  obtain ⟨c, hc⟩ := exists_combine hv ha hj hk
  have hshapes : List.Forall₂ (fun child b => Branch.Shapes b child) ((init ++ [last]).map (·.1))
      ((init ++ [last]).map branchOf) := by
    rw [List.forall₂_map_left_iff, List.forall₂_map_right_iff, List.forall₂_same]
    exact fun b hb => shapes_branchOf (hj b hb)
  obtain ⟨bs, b, joined, hbs, -, hl, hm, rfl⟩ := combine_eq_embedWith hshapes (by simp) hv ha hc
  rw [List.map_append, List.map_singleton] at hbs
  obtain ⟨rfl, hb⟩ := List.append_inj' hbs rfl
  obtain rfl := List.singleton_inj.mp hb
  rw [Collection.taken_eq_byFirst] at hm
  refine ⟨rfl, _, hc, hl, ?_, Collection.byFirst_perm _ _, fun host =>
    ⟨fun b hb => get?_nested hd host hb, get?_nested_last hd host, held_of_plain,
      fun name hn => get?_nested_of_ne host hn⟩⟩
  rw [Collection.members_reshape, hm]
  rfl

end NestedLoop

/-! ## Hosts that hold something already -/

open Collection.Shop (orders customers customer orderLines lines)

namespace Shop

/-- An order with a customer and a line that were embedded in it before. -/
def hold (order : Entity) : Entity :=
  (order.set "customer" (.one (some [("id", .int 9)]))).set "lines" (.many [[("id", .int 10), ("order", .int 1)]])

/-- The orders, of which the first holds something. -/
def holding : Collection := orders.editRow 0 hold

/-- No order is found by what it holds. -/
theorem keeps_hold : (Operation.edit 0 fun m => { m with entity := hold m.entity }).Keeps orders := by
  refine fun m _ => ⟨fun field hf => ?_, .inl rfl⟩
  have hfield : field ≠ "lines" ∧ field ≠ "customer" := by
    rcases hf with hf | hf
    · obtain rfl : "id" = field := Option.some.inj hf
      decide
    · obtain rfl : field = "buyer" := List.mem_singleton.mp hf
      decide
  exact (Entity.keyOf_set_of_ne hfield.1 _).trans (Entity.keyOf_set_of_ne hfield.2 _)

theorem valid_holding : holding.Valid := (Collection.numbered_ofDocuments _ _ _).valid.edit keeps_hold

theorem apart_holding : holding.Apart := (Collection.numbered_ofDocuments _ _ _).apart.edit keeps_hold

theorem attached_holding : ∀ b ∈ [(customers, customer)] ++ [(orderLines, lines)], Attached holding b.1 b.2 :=
  fun b hb =>
    have h := Collection.Shop.attached b hb
    ⟨h.valid, h.navigation, h.host, h.related⟩

end Shop

/-- The orders that have lines, in the order of the lines: the first keeps the line that it held, and not the
customer; the customer of the third is unknown. -/
theorem combine_eq_nestedLoop_orders : ∃ c, combine Shop.holding [customers, orderLines] = .ok c ∧
    c.rows.map (·.toDocument) = [
      [("id", .int 3), ("buyer", .int 8), ("lines", .array [.object [("id", .int 31), ("order", .int 3)]]),
        ("customer", .null)],
      [("id", .int 1), ("buyer", .int 7), ("note", .string "gift"), ("customer", .object [("id", .int 7)]),
        ("lines", .array [.object [("id", .int 10), ("order", .int 1)],
          .object [("id", .int 11), ("order", .int 1)], .object [("id", .int 12), ("order", .int 1)]])]] := by
  obtain ⟨-, c, hc, -, hm, -⟩ := combine_eq_nestedLoop Shop.valid_holding Shop.apart_holding Shop.attached_holding
    (by decide) (by decide)
  refine ⟨c, hc, ?_⟩
  rw [Collection.rows, hm]
  rfl

/-- **What a host holds under the name of the last child is kept**: the first order has another customer than
the one that it joins with, and a line more than those that it joins with. -/
theorem held_kept : Shop.holding.Valid ∧ Shop.holding.Apart ∧
    Attached Shop.holding customers customer ∧ Attached Shop.holding orderLines lines ∧
    (∀ edge ∈ [customer, lines], edge.name ≠ edge.hostKey ∧ edge.name ≠ edge.relatedKey) ∧
    (∃ c host row, combine Shop.holding [customers] = .ok c ∧ host ∈ Shop.holding.rows ∧ row ∈ c.rows ∧
      row.get? "id" = host.get? "id" ∧
      fieldFor customer (related (customers, customer) host) = .one (some [("id", .int 7)]) ∧
      row.get? "customer" = some (.one (some [("id", .int 9)]))) ∧
    ∃ c host row, combine Shop.holding [orderLines] = .ok c ∧ host ∈ Shop.holding.rows ∧ row ∈ c.rows ∧
      row.get? "id" = host.get? "id" ∧
      fieldFor lines (related (orderLines, lines) host) =
        .many [[("id", .int 11), ("order", .int 1)], [("id", .int 12), ("order", .int 1)]] ∧
      row.get? "lines" = some (.many [[("id", .int 10), ("order", .int 1)],
        [("id", .int 11), ("order", .int 1)], [("id", .int 12), ("order", .int 1)]]) := by
  have hjoined := Shop.attached_holding
  refine ⟨Shop.valid_holding, Shop.apart_holding, hjoined _ (.head _), hjoined _ (.tail _ (.head _)), by decide,
    ?_, ?_⟩
  · exact ⟨_, _, _, rfl, .head _, .head _, rfl, rfl, rfl⟩
  · exact ⟨_, _, _, rfl, .head _, .tail _ (.head _), rfl, rfl, rfl⟩

end PathQuery.Expand
