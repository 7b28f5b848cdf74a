import PathQuery.Proofs.Graph.Projection
import PathQuery.Proofs.Text

/-!
# Proofs/Graph/Columns — the columns of the rows that a host makes

Where no name has a dot, the columns under one edge say which related row they come from.  A row that a
host makes has the host's own fields, and under each edge either nothing or the fields of a row that joins
with the host (`Columned`).  Each choice of joining rows is made once: `exists_mem_spreads` and
`atMostOne_spreads`.
-/

namespace PathQuery

/-! ## Names of columns -/

/-- A name without a dot. -/
def DotFree (name : String) : Prop := '.' ∉ name.toList

instance (name : String) : Decidable (DotFree name) := inferInstanceAs (Decidable (¬ _))

/-- The column of a field at the end of some edges. -/
def column : List String → String → String
  | [], field => field
  | edge :: rest, field => s!"{edge}.{column rest field}"

theorem toList_dotted (name rest : String) :
    s!"{name}.{rest}".toList = name.toList ++ '.' :: rest.toList := by
  change (name ++ "." ++ rest).toList = _
  rw [String.toList_append, String.toList_append]
  simp

theorem not_dotFree_dotted (name rest : String) : ¬ DotFree s!"{name}.{rest}" := by
  rw [DotFree, toList_dotted]
  simp

/-- A column has one reading as an edge and the column behind it. -/
theorem dotted_inj {a b r s : String} (ha : DotFree a) (hb : DotFree b)
    (h : s!"{a}.{r}" = s!"{b}.{s}") : a = b ∧ r = s := by
  have hl := congrArg String.toList h
  rw [toList_dotted, toList_dotted] at hl
  obtain ⟨hab, hrs⟩ := append_separator_inj ha hb hl
  exact ⟨String.toList_inj.mp hab, String.toList_inj.mp hrs⟩

/-! ## Columns under an edge -/

/-- What stands in a row under the name of an edge. -/
def Entity.under (row : Entity) (edge : String) (name : String) : Option FieldValue :=
  row.get? s!"{edge}.{name}"

namespace Projection

/-- The fields of a related row as columns. -/
def columnsOf (edge : Navigation) (related : Entity) : Entity :=
  related.map fun (name, value) => (s!"{edge.name}.{name}", value)

theorem withColumns_eq (edge : Navigation) (row related : Entity) :
    withColumns edge row related = row.setAll (columnsOf edge related) := rfl

theorem names_columnsOf (edge : Navigation) (related : Entity) :
    (columnsOf edge related).names = related.names.map fun name => s!"{edge.name}.{name}" := by
  simp [columnsOf, Fields.names, Function.comp_def]

theorem dotted_injective (name : String) : Function.Injective fun rest : String => s!"{name}.{rest}" := by
  intro r s h
  have hl := congrArg String.toList h
  simp only [toList_dotted] at hl
  exact String.toList_inj.mp (List.cons.inj (List.append_cancel_left hl)).2

theorem nodup_columnsOf (edge : Navigation) {related : Entity} (h : related.names.Nodup) :
    (columnsOf edge related).names.Nodup := by
  rw [names_columnsOf]
  exact h.map (dotted_injective edge.name)

theorem get?_columnsOf (edge : Navigation) (related : Entity) (name : String) :
    (columnsOf edge related).get? s!"{edge.name}.{name}" = related.get? name := by
  induction related with
  | nil => rfl
  | cons field rest ih =>
    obtain ⟨n, v⟩ := field
    rw [columnsOf, List.map_cons]
    by_cases hn : n = name
    · subst hn
      simp [Fields.get?]
    · have hne : s!"{edge.name}.{n}" ≠ s!"{edge.name}.{name}" := fun h =>
        hn (dotted_injective edge.name h)
      rw [Fields.get?, if_neg hne, Fields.get?, if_neg hn]
      exact ih

variable {edge : Navigation} {row related : Entity}

theorem nodup_withColumns (h : row.names.Nodup) : (withColumns edge row related).names.Nodup :=
  Fields.nodup_names_setAll h _

/-- Under the edge stand the fields of the related row, over what stood there. -/
theorem under_withColumns (h : related.names.Nodup) (name : String) :
    (withColumns edge row related).under edge.name name =
      (related.get? name).or (row.under edge.name name) := by
  rw [Entity.under, withColumns_eq, Fields.get?_setAll row (nodup_columnsOf edge h), get?_columnsOf]
  rfl

theorem get?_withColumns_of_dotFree {name : String} (h : DotFree name) :
    (withColumns edge row related).get? name = row.get? name := by
  refine Fields.get?_setAll_of_notMem row fun hm => ?_
  rw [← columnsOf, names_columnsOf] at hm
  obtain ⟨n, -, rfl⟩ := List.mem_map.mp hm
  exact not_dotFree_dotted _ _ h

theorem under_withColumns_of_ne {name other : String} (he : DotFree edge.name) (ho : DotFree other)
    (hne : edge.name ≠ other) :
    (withColumns edge row related).under other name = row.under other name := by
  refine Fields.get?_setAll_of_notMem row fun hm => ?_
  rw [← columnsOf, names_columnsOf] at hm
  obtain ⟨n, -, heq⟩ := List.mem_map.mp hm
  exact hne (dotted_inj he ho heq).1

theorem keyOf_congr {a b : Entity} {field : String} (h : a.get? field = b.get? field) :
    a.keyOf field = b.keyOf field := by
  rw [Entity.keyOf, Entity.keyOf, Entity.value?, Entity.value?, h]

/-! ## Rows that a host makes -/

/-- The edges of some children with their rows can be told apart by the columns under them. -/
structure Separate (branches : List (Navigation × List Entity)) : Prop where
  dotFree : ∀ b ∈ branches, DotFree b.1.name ∧ DotFree b.1.hostKey
  distinct : branches.Pairwise fun a b => a.1.name ≠ b.1.name
  nodup : ∀ b ∈ branches, ∀ row ∈ b.2, row.names.Nodup

/-- A row has the fields of a host, and under each edge either nothing or a row that joins with it. -/
structure Columned (branches : List (Navigation × List Entity)) (host row : Entity) : Prop where
  nodup : row.names.Nodup
  own : ∀ name, DotFree name → row.get? name = host.get? name
  branch : ∀ b ∈ branches, (∀ name, row.under b.1.name name = none) ∨
    ∃ x ∈ b.2, b.1.joins host x = true ∧ row.under b.1.name = x.get?
  rest : ∀ other, DotFree other → (∀ b ∈ branches, b.1.name ≠ other) →
    ∀ name, row.under other name = none

variable {done : List (Navigation × List Entity)} {host : Entity} {b : Navigation × List Entity}

theorem Columned.joins_eq (h : Columned done host row) (hk : DotFree edge.hostKey) (x : Entity) :
    edge.joins row x = edge.joins host x := by
  rw [Bool.eq_iff_iff, Navigation.joins_iff, Navigation.joins_iff, keyOf_congr (h.own _ hk)]

/-- The rows that a row makes with one more child. -/
theorem mem_spreadRow {row' : Entity} :
    row' ∈ spreadRow b.1 b.2 row ↔
      (b.2.filter (b.1.joins row) = [] ∧ row' = row) ∨
        ∃ x ∈ b.2, b.1.joins row x = true ∧ row' = withColumns b.1 row x := by
  rw [spreadRow]
  split
  · rename_i hnil
    rw [List.mem_singleton]
    constructor
    · exact fun h => .inl ⟨hnil, h⟩
    · rintro (⟨-, h⟩ | ⟨x, hx, hj, -⟩)
      · exact h
      · exact absurd (List.mem_filter.mpr ⟨hx, hj⟩) (hnil ▸ List.not_mem_nil)
  · rename_i hne
    simp only [List.mem_map, List.mem_filter]
    constructor
    · rintro ⟨x, ⟨hx, hj⟩, rfl⟩
      exact .inr ⟨x, hx, hj, rfl⟩
    · rintro (⟨hnil, -⟩ | ⟨x, hx, hj, rfl⟩)
      · exact absurd hnil hne
      · exact ⟨x, ⟨hx, hj⟩, rfl⟩

theorem Columned.spreadRow {row' : Entity} (h : Columned done host row)
    (hs : Separate (done ++ [b])) (hm : row' ∈ spreadRow b.1 b.2 row) :
    Columned (done ++ [b]) host row' := by
  have hb : b ∈ done ++ [b] := List.mem_append_right _ (.head _)
  obtain ⟨hname, hkey⟩ := hs.dotFree b hb
  have hother : ∀ d ∈ done, d.1.name ≠ b.1.name := fun d hd =>
    (List.pairwise_append.mp hs.distinct).2.2 d hd b (.head _)
  rcases mem_spreadRow.mp hm with ⟨-, rfl⟩ | ⟨x, hx, hj, rfl⟩
  · refine ⟨h.nodup, h.own, fun d hd => ?_, fun other ho hne => h.rest other ho fun d hd =>
      hne d (List.mem_append_left _ hd)⟩
    rcases List.mem_append.mp hd with hd | hd
    · exact h.branch d hd
    · rw [List.mem_singleton.mp hd]
      exact .inl (h.rest _ hname hother)
  · refine ⟨nodup_withColumns h.nodup, fun name hn => ?_, fun d hd => ?_, fun other ho hne name => ?_⟩
    · rw [get?_withColumns_of_dotFree hn, h.own name hn]
    · rcases List.mem_append.mp hd with hd | hd
      · have hdn := (hs.dotFree d (List.mem_append_left _ hd)).1
        have hkeep : (withColumns b.1 row x).under d.1.name = row.under d.1.name := funext fun name =>
          under_withColumns_of_ne hname hdn (hother d hd).symm
        rw [hkeep]
        exact h.branch d hd
      · rw [List.mem_singleton.mp hd]
        refine .inr ⟨x, hx, h.joins_eq hkey x ▸ hj, funext fun name => ?_⟩
        rw [under_withColumns (hs.nodup b hb x hx), h.rest _ hname hother, Option.or_none]
    · rw [under_withColumns_of_ne hname ho (hne b hb)]
      exact h.rest other ho (fun d hd => hne d (List.mem_append_left _ hd)) name

theorem columned_self (hn : host.names.Nodup) (hd : ∀ name ∈ host.names, DotFree name) :
    Columned [] host host := by
  refine ⟨hn, fun _ _ => rfl, by simp, fun other _ _ name => ?_⟩
  exact Fields.get?_eq_none_iff.mpr fun hm => not_dotFree_dotted _ _ (hd _ hm)

theorem spreads_append (branches : List (Navigation × List Entity)) (b : Navigation × List Entity)
    (host : Entity) :
    spreads (branches ++ [b]) host = (spreads branches host).flatMap (spreadRow b.1 b.2) := by
  rw [spreads, List.foldl_append]
  rfl

theorem spreads_cons (b : Navigation × List Entity) (rest : List (Navigation × List Entity)) (row : Entity) :
    spreads (b :: rest) row = (spreadRow b.1 b.2 row).flatMap (spreads rest) := by
  have hfrom : ∀ rows : List Entity,
      rest.foldl (fun rows branch => rows.flatMap (spreadRow branch.1 branch.2)) rows =
        rows.flatMap (spreads rest) := by
    induction rest with
    | nil => intro rows; exact (List.flatMap_singleton' rows).symm
    | cons d rest ih =>
      intro rows
      rw [List.foldl_cons, ih, List.flatMap_assoc]
      refine List.flatMap_congr fun r _ => ?_
      rw [spreads, List.foldl_cons, List.flatMap_singleton, ih]
  rw [spreads, List.foldl_cons, List.flatMap_singleton, hfrom]

/-- A column that is under none of some edges is one of the host. -/
theorem get?_of_mem_spreads {branches : List (Navigation × List Entity)} {name : String}
    (hn : ∀ b ∈ branches, ∀ rest : String, name ≠ s!"{b.1.name}.{rest}") (hm : row ∈ spreads branches host) :
    row.get? name = host.get? name := by
  induction branches using List.reverseRecOn generalizing row with
  | nil => rw [List.mem_singleton.mp hm]
  | append_singleton init b ih =>
    rw [spreads_append] at hm
    obtain ⟨row₀, hm₀, hm⟩ := List.mem_flatMap.mp hm
    rw [← ih (fun d hd => hn d (List.mem_append_left _ hd)) hm₀]
    rcases mem_spreadRow.mp hm with ⟨-, rfl⟩ | ⟨x, -, -, rfl⟩
    · rfl
    · refine Fields.get?_setAll_of_notMem row₀ fun hin => ?_
      rw [← columnsOf, names_columnsOf] at hin
      obtain ⟨rest, -, he⟩ := List.mem_map.mp hin
      exact hn b (List.mem_append_right _ (.head _)) rest he.symm

theorem Separate.init {branches : List (Navigation × List Entity)} (h : Separate (branches ++ [b])) :
    Separate branches where
  dotFree d hd := h.dotFree d (List.mem_append_left _ hd)
  distinct := (List.pairwise_append.mp h.distinct).1
  nodup d hd := h.nodup d (List.mem_append_left _ hd)

section Host

variable {branches : List (Navigation × List Entity)}

/-- **Every row that a host makes** has the host's fields and the columns of rows that join with it. -/
theorem columned_of_mem_spreads (hs : Separate branches) (hn : host.names.Nodup)
    (hd : ∀ name ∈ host.names, DotFree name) (hm : row ∈ spreads branches host) :
    Columned branches host row := by
  induction branches using List.reverseRecOn generalizing row with
  | nil =>
    rw [List.mem_singleton.mp hm]
    exact columned_self hn hd
  | append_singleton rest b ih =>
    rw [spreads_append] at hm
    obtain ⟨row₀, hm₀, hm⟩ := List.mem_flatMap.mp hm
    exact (ih hs.init hm₀).spreadRow hs hm

/-! ## Each choice once -/

/-- No two members of a list, at different places, have a property. -/
def AtMostOne {α : Type} (P : α → Prop) (l : List α) : Prop := l.Pairwise fun a b => ¬ (P a ∧ P b)

variable {Q : Navigation × List Entity → (String → Option FieldValue) → Prop}

theorem under_of_mem_spreadRow {row' : Entity} (hs : Separate (branches ++ [b]))
    (hm : row' ∈ spreadRow b.1 b.2 row) {d : Navigation × List Entity} (hd : d ∈ branches) :
    row'.under d.1.name = row.under d.1.name := by
  rcases mem_spreadRow.mp hm with ⟨-, rfl⟩ | ⟨x, -, -, rfl⟩
  · rfl
  · have hb := (hs.dotFree b (List.mem_append_right _ (.head _))).1
    have hdn := (hs.dotFree d (List.mem_append_left _ hd)).1
    have hne := (List.pairwise_append.mp hs.distinct).2.2 d hd b (.head _)
    exact funext fun name => under_withColumns_of_ne hb hdn hne.symm

theorem under_withColumns_self (hs : Separate (branches ++ [b])) (hn : host.names.Nodup)
    (hd : ∀ name ∈ host.names, DotFree name) (hm : row ∈ spreads branches host) {x : Entity}
    (hx : x ∈ b.2) : (withColumns b.1 row x).under b.1.name = x.get? := by
  have hb : b ∈ branches ++ [b] := List.mem_append_right _ (.head _)
  refine funext fun name => ?_
  rw [under_withColumns (hs.nodup b hb x hx),
    (columned_of_mem_spreads hs.init hn hd hm).rest _ (hs.dotFree b hb).1 fun d hd =>
      (List.pairwise_append.mp hs.distinct).2.2 d hd b (.head _), Option.or_none]

/-- **No choice is made twice**: if at most one row of each child has a property, at most one of the
rows that a host makes has it under all edges. -/
theorem atMostOne_spreads (hs : Separate branches) (hn : host.names.Nodup)
    (hd : ∀ name ∈ host.names, DotFree name)
    (hone : ∀ b ∈ branches, AtMostOne (fun x => Q b x.get?) b.2) :
    AtMostOne (fun row => ∀ b ∈ branches, Q b (row.under b.1.name)) (spreads branches host) := by
  induction branches using List.reverseRecOn with
  | nil => exact List.pairwise_singleton _ _
  | append_singleton rest b ih =>
    have hb : b ∈ rest ++ [b] := List.mem_append_right _ (.head _)
    rw [spreads_append, AtMostOne, List.pairwise_flatMap]
    constructor
    · -- rows made from one row differ in the new columns
      intro row hrow
      rw [Projection.spreadRow]
      split
      · exact List.pairwise_singleton _ _
      · have hunder : ∀ x ∈ b.2, (withColumns b.1 row x).under b.1.name = x.get? := fun x hx =>
          under_withColumns_self hs hn hd hrow hx
        rw [List.pairwise_map]
        refine ((hone b hb).filter _).imp_of_mem fun {x y} hx hy hxy hboth => hxy ?_
        have hqx := hboth.1 b hb
        have hqy := hboth.2 b hb
        rw [hunder x (List.mem_filter.mp hx).1] at hqx
        rw [hunder y (List.mem_filter.mp hy).1] at hqy
        exact ⟨hqx, hqy⟩
    · -- rows made from different rows keep what these differ in
      refine (ih hs.init fun d hd => hone d (List.mem_append_left _ hd)).imp fun {r₁ r₂} h x hx y hy hxy =>
        h ⟨fun d hd => ?_, fun d hd => ?_⟩
      · rw [← under_of_mem_spreadRow hs hx hd]
        exact hxy.1 d (List.mem_append_left _ hd)
      · rw [← under_of_mem_spreadRow hs hy hd]
        exact hxy.2 d (List.mem_append_left _ hd)

/-- **Every choice is made**: a host makes a row with joining rows of the children under all edges. -/
theorem exists_mem_spreads (hs : Separate branches) (hn : host.names.Nodup)
    (hd : ∀ name ∈ host.names, DotFree name)
    (hall : ∀ b ∈ branches, ∃ x ∈ b.2, b.1.joins host x = true ∧ Q b x.get?) :
    ∃ row ∈ spreads branches host, ∀ b ∈ branches, Q b (row.under b.1.name) := by
  induction branches using List.reverseRecOn with
  | nil => exact ⟨host, List.mem_singleton.mpr rfl, by simp⟩
  | append_singleton rest b ih =>
    have hb : b ∈ rest ++ [b] := List.mem_append_right _ (.head _)
    obtain ⟨row, hrow, hq⟩ := ih hs.init fun d hd => hall d (List.mem_append_left _ hd)
    obtain ⟨x, hx, hj, hqx⟩ := hall b hb
    have hcol := columned_of_mem_spreads hs.init hn hd hrow
    have hmem : withColumns b.1 row x ∈ spreadRow b.1 b.2 row :=
      mem_spreadRow.mpr (.inr ⟨x, hx, hcol.joins_eq (hs.dotFree b hb).2 x ▸ hj, rfl⟩)
    refine ⟨withColumns b.1 row x, ?_, fun d hd' => ?_⟩
    · rw [spreads_append]
      exact List.mem_flatMap.mpr ⟨row, hrow, hmem⟩
    · rcases List.mem_append.mp hd' with hd' | hd'
      · rw [under_of_mem_spreadRow hs hmem hd']
        exact hq d hd'
      · rw [List.mem_singleton.mp hd', under_withColumns_self hs hn hd hrow hx]
        exact hqx

end Host

end Projection

end PathQuery
