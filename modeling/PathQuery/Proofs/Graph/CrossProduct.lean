import PathQuery.Proofs.Graph.Total

/-!
# Proofs/Graph/CrossProduct — a projection is a cross product, host by host

Below the root, a host makes one row for each way to choose one of the rows that it joins with for every
child, a child without such a row counting as one choice without columns.  The rows are multiplied child by
child, each step reading the key of a row that is wider already; the columns that were added have dots and
the host's fields have none, so the host's key is read (`combine_eq_crossProduct`).
-/

namespace PathQuery.Projection

open Collection (Attached byFirst)

/-! ## The cross product -/

/-- The ways to choose from each of some lists, those that choose from the first alike being together. -/
def choices {α : Type} : List (List α) → List (List α)
  | [] => [[]]
  | factor :: rest => factor.flatMap fun a => (choices rest).map (a :: ·)

theorem length_choices {α : Type} (factors : List (List α)) :
    (choices factors).length = (factors.map List.length).prod := by
  induction factors with
  | nil => rfl
  | cons factor rest ih => simp [choices, List.length_flatMap, ih]

/-- What the rows of a child add to a host: the columns of each that joins with it, or no columns. -/
def factor (host : Entity) (b : Navigation × List Entity) : List Entity :=
  match b.2.filter (b.1.joins host) with
  | [] => [[]]
  | found => found.map (columnsOf b.1)

theorem length_factor (host : Entity) (b : Navigation × List Entity) :
    (factor host b).length = max 1 (b.2.countP (b.1.joins host)) := by
  rw [factor, List.countP_eq_length_filter]
  split
  · rename_i hnil
    rw [hnil]
    rfl
  · rename_i hne
    rw [List.length_map, Nat.max_eq_right (List.length_pos_iff.mpr hne)]

/-- The rows of a cross product: the host followed by the columns of each choice. -/
def product (branches : List (Navigation × List Entity)) (host : Entity) : List Entity :=
  (choices (branches.map (factor host))).map fun chosen => host ++ chosen.flatten

/-- A host with `mᵢ` joining rows of each child makes as many rows as the product of `max 1 mᵢ`. -/
theorem length_product (branches : List (Navigation × List Entity)) (host : Entity) :
    (product branches host).length = (branches.map fun b => max 1 (b.2.countP (b.1.joins host))).prod := by
  rw [product, List.length_map, length_choices, List.map_map]
  exact congrArg _ (List.map_congr_left fun b _ => length_factor host b)

theorem product_cons (b : Navigation × List Entity) (rest : List (Navigation × List Entity)) (host : Entity) :
    product (b :: rest) host = (factor host b).flatMap fun columns =>
      (choices (rest.map (factor host))).map fun chosen => host ++ columns ++ chosen.flatten := by
  simp [product, choices, List.map_flatMap, Function.comp_def]

/-! ## Multiplying child by child -/

variable {b : Navigation × List Entity} {rest : List (Navigation × List Entity)} {row columns : Entity}

/-- Some children have no columns in a row yet, and can be told apart by those that they will have. -/
structure Fresh (branches : List (Navigation × List Entity)) (row : Entity) : Prop extends
    Separate branches where
  absent : ∀ b ∈ branches, ∀ name : String, s!"{b.1.name}.{name}" ∉ row.names

theorem mem_factor (h : columns ∈ factor row b) :
    columns = [] ∨ ∃ x ∈ b.2, columns = columnsOf b.1 x := by
  rw [factor] at h
  split at h
  · exact .inl (List.mem_singleton.mp h)
  · obtain ⟨x, hx, rfl⟩ := List.mem_map.mp h
    exact .inr ⟨x, (List.mem_filter.mp hx).1, rfl⟩

/-- The names that a factor adds are those of columns under its edge. -/
theorem exists_of_mem_names (h : columns ∈ factor row b) {name : String} (hn : name ∈ columns.names) :
    ∃ field : String, name = s!"{b.1.name}.{field}" := by
  rcases mem_factor h with rfl | ⟨x, -, rfl⟩
  · obtain ⟨⟩ := hn
  · rw [names_columnsOf] at hn
    obtain ⟨field, -, rfl⟩ := List.mem_map.mp hn
    exact ⟨field, rfl⟩

/-- **One step appends a factor.** -/
theorem Fresh.spreadRow_eq (h : Fresh (b :: rest) row) :
    spreadRow b.1 b.2 row = (factor row b).map (row ++ ·) := by
  have hmem : ∀ x ∈ b.2.filter (b.1.joins row), x ∈ b.2 := fun x hx => (List.mem_filter.mp hx).1
  rw [spreadRow, factor]
  generalize b.2.filter (b.1.joins row) = found at hmem ⊢
  rcases found with _ | ⟨first, others⟩
  · exact congrArg (fun r => [r]) (List.append_nil row).symm
  · rw [List.map_map]
    refine List.map_congr_left fun x hx => Fields.setAll_of_disjoint
      (nodup_columnsOf b.1 (h.nodup b (.head _) x (hmem x hx))) fun name hrow hcol => ?_
    rw [← columnsOf, names_columnsOf] at hcol
    obtain ⟨field, -, rfl⟩ := List.mem_map.mp hcol
    exact h.absent b (.head _) field hrow

theorem Fresh.tail (h : Fresh (b :: rest) row) (hc : columns ∈ factor row b) : Fresh rest (row ++ columns) where
  dotFree d hd := h.dotFree d (.tail _ hd)
  distinct := (List.pairwise_cons.mp h.distinct).2
  nodup d hd := h.nodup d (.tail _ hd)
  absent d hd name := by
    rw [Fields.names, List.map_append, List.mem_append, not_or]
    refine ⟨h.absent d (.tail _ hd) name, fun hm => ?_⟩
    obtain ⟨field, he⟩ := exists_of_mem_names hc hm
    have hne := (List.pairwise_cons.mp h.distinct).1 d hd
    exact hne (dotted_inj (h.dotFree d (.tail _ hd)).1 (h.dotFree b (.head _)).1 he).1.symm

/-- The columns of one child do not change what the others add. -/
theorem Fresh.factor_append (h : Fresh (b :: rest) row) (hc : columns ∈ factor row b)
    {d : Navigation × List Entity} (hd : d ∈ rest) : factor (row ++ columns) d = factor row d := by
  have hkey : Fields.get? (row ++ columns) d.1.hostKey = row.get? d.1.hostKey := by
    refine Fields.get?_append_of_notMem fun hm => ?_
    obtain ⟨field, he⟩ := exists_of_mem_names hc hm
    exact not_dotFree_dotted _ _ (he ▸ (h.dotFree d (.tail _ hd)).2)
  have hjoins : d.1.joins (row ++ columns) = d.1.joins row := funext fun x => by
    rw [Bool.eq_iff_iff, Navigation.joins_iff, Navigation.joins_iff, keyOf_congr hkey]
  rw [factor, factor, hjoins]

/-- **The rows that a host makes are its cross product.** -/
theorem Fresh.spreads_eq {branches : List (Navigation × List Entity)} (h : Fresh branches row) :
    spreads branches row = product branches row := by
  induction branches generalizing row with
  | nil => exact congrArg (fun r => [r]) (List.append_nil row).symm
  | cons b rest ih =>
    rw [spreads_cons, h.spreadRow_eq, List.flatMap_map, product_cons]
    refine List.flatMap_congr fun columns hc => ?_
    rw [ih (h.tail hc), product, List.map_congr_left fun d hd => h.factor_append hc hd]

/-! ## Combined rows -/

/-- The edge of a child with its rows. -/
def branchOf (b : Collection × Navigation) : Navigation × List Entity := (b.2, b.1.rows)

/-- **A projection is a cross product**, for every node but a root: the hosts that join with some row of the
last child, each once, in the order of the first such row and then their own, are each followed by every
choice of columns, that of the first child varying slowest.  No row is merged with another. -/
theorem combine_eq_crossProduct {n : Node} {hosts : Collection} {init : List (Collection × Navigation)}
    {last : Collection × Navigation} (hn : n.isRoot = false) (hv : hosts.Valid) (ha : hosts.Apart)
    (hj : ∀ b ∈ init ++ [last], Attached hosts b.1 b.2)
    (hd : (init ++ [last]).Pairwise fun a b => a.2.name ≠ b.2.name)
    (hedges : ∀ b ∈ init ++ [last], DotFree b.2.name)
    (hdot : ∀ m ∈ hosts.members, ∀ name ∈ m.entity.names, DotFree name)
    (hrows : ∀ b ∈ init ++ [last], ∀ row ∈ b.1.rows, row.names.Nodup) :
    (∃ c, Combination.projection.combine n hosts ((init ++ [last]).map (·.1)) = .ok c ∧
      c.primaryKey = none ∧
      c.rows = (byFirst last.2 last.1.rows hosts.members).flatMap fun m =>
        product ((init ++ [last]).map branchOf) m.entity) ∧
    (byFirst last.2 last.1.rows hosts.members).Perm
      (hosts.members.filter fun m => last.1.rows.any (last.2.joins m.entity)) ∧
    ∀ host : Entity, (product ((init ++ [last]).map branchOf) host).length =
      ((init ++ [last]).map fun b => max 1 (b.1.rows.countP (b.2.joins host))).prod := by
  refine ⟨?_, Collection.byFirst_perm _ _, fun host => by rw [length_product, List.map_map]; rfl⟩
  have hcombine : ∀ children, Combination.projection.combine n hosts children =
      combine n.plan.origin [] hosts children := fun children => by
    rw [Combination.combine, hn]
    rfl
  have hnav : List.Forall₂ (fun child edge => child.navigation = .ok edge) ((init ++ [last]).map (·.1))
      ((init ++ [last]).map (·.2)) := by
    rw [List.forall₂_map_left_iff, List.forall₂_map_right_iff, List.forall₂_same]
    exact fun b hb => (hj b hb).navigation
  have hzip : ∀ pair ∈ ((init ++ [last]).map (·.1)).zip ((init ++ [last]).map (·.2)),
      pair ∈ init ++ [last] := by
    intro pair hp
    rw [List.zip_map', List.map_id'] at hp
    exact hp
  obtain ⟨c, hc⟩ : ∃ c, combine n.plan.origin [] hosts ((init ++ [last]).map (·.1)) = .ok c :=
    exists_combine hnav (fun pair hp => ⟨(hj pair (hzip pair hp)).valid, (hj pair (hzip pair hp)).related,
      (hj pair (hzip pair hp)).host⟩) hv ha hdot
  have hvalid : ∀ child ∈ (init ++ [last]).map (·.1), child.Valid := by
    rw [List.forall_mem_map]
    exact fun b hb => (hj b hb).valid
  obtain ⟨hlisted, -, found, hfound, hmade⟩ := rows_combine hnav (by simp) hvalid hv ha hc
  have hbranches : branches ((init ++ [last]).map (·.2)) ((init ++ [last]).map (·.1)) =
      (init ++ [last]).map branchOf := by
    rw [branches, List.map_map, List.zip_map']
    rfl
  rw [hbranches] at hfound hmade
  rw [List.map_append, List.map_singleton, List.getLast?_concat] at hfound
  cases hfound
  refine ⟨c, (hcombine _).trans hc, hlisted.keyless, hmade.trans ?_⟩
  rw [Collection.taken_eq_byFirst]
  refine List.flatMap_congr fun m hm => Fresh.spreads_eq ?_
  have hm : m ∈ hosts.members := (List.mem_filter.mp ((Collection.byFirst_perm _ _).mem_iff.mp hm)).1
  refine ⟨⟨?_, List.pairwise_map.mpr hd, ?_⟩, ?_⟩
  · rw [List.forall_mem_map]
    exact fun b hb => ⟨hedges b hb,
      hdot m hm _ (mem_names_of_isKeyed (hv.keyed _ (hj b hb).host m hm))⟩
  · rw [List.forall_mem_map]
    exact hrows
  · rw [List.forall_mem_map]
    exact fun b _ name hin => not_dotFree_dotted _ _ (hdot m hm _ hin)

/-- The orders that have lines, with their customers below another node: one row for each line. -/
theorem combine_eq_crossProduct_orders : ∃ (n : Node) (c : Collection), n.isRoot = false ∧
    Combination.projection.combine n Collection.Shop.orders
      [Collection.Shop.customers, Collection.Shop.orderLines] = .ok c ∧
    c.rows.map (·.toDocument) = [
      [("id", .int 3), ("buyer", .int 8), ("lines.id", .int 31), ("lines.order", .int 3)],
      [("id", .int 1), ("buyer", .int 7), ("note", .string "gift"), ("customer.id", .int 7),
        ("lines.id", .int 11), ("lines.order", .int 1)],
      [("id", .int 1), ("buyer", .int 7), ("note", .string "gift"), ("customer.id", .int 7),
        ("lines.id", .int 12), ("lines.order", .int 1)]] := by
  have hnum := Collection.numbered_ofDocuments
  let n : Node := ⟨⟨1, "Accounts/orders", some 0, .ofResource "Orders" (.stub "Orders" none), none⟩,
    ⟨Collection.Shop.orders, none, []⟩, []⟩
  obtain ⟨⟨c, hc, -, hrows⟩, -⟩ := combine_eq_crossProduct (n := n) rfl (hnum _ _ _).valid
    (hnum _ _ _).apart Collection.Shop.attached (by decide) (by decide) (by decide +kernel) (by decide +kernel)
  refine ⟨n, c, rfl, hc, ?_⟩
  rw [hrows]
  rfl

end PathQuery.Projection
