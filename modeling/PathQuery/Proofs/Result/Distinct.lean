import PathQuery.Proofs.Result.Find
import PathQuery.Proofs.Result.Refinement

/-!
# Proofs/Result/Distinct — three ways to the distinct values of a field, and one answer

The distinct values of a field are read off the members (primary key), off the keys of an index, or found
by a scan that skips what it has seen.  After any operations all three give the keys that the rows have in
the field, each once (`distinctValues_runAll`): in the order of the rows, in the order of the keys, and in the
order of their first appearance.
-/

namespace PathQuery

/-! ## Keys -/

/-- Keys are told apart by their values. -/
theorem IndexKey.toValue_injective : Function.Injective IndexKey.toValue := by
  intro a b h
  cases a <;> cases b <;> simp_all [toValue, Value.int]

/-- The key of a row in a field that is there with a scalar value. -/
def Entity.key? (e : Entity) (field : String) : Option IndexKey :=
  (e.value? field).bind IndexKey.ofValue?

theorem Entity.keyOf_eq_ok_iff {e : Entity} {field : String} {key : IndexKey} :
    e.keyOf field = .ok key ↔ e.key? field = some key := by
  rw [keyOf, key?]
  cases e.value? field with
  | none => simp
  | some v =>
    rw [Option.bind_some]
    dsimp only
    cases IndexKey.ofValue? v <;> simp

namespace Collection

variable {c : Collection} {field : String} {rows : List Entity} {keys : List IndexKey}

/-- The keys of rows are read where every row has one. -/
theorem keysOf_eq_ok_iff : keysOf field rows = .ok keys ↔ rows.map (·.key? field) = keys.map some := by
  induction rows generalizing keys with
  | nil => cases keys <;> simp [keysOf]
  | cons e rest ih =>
    rw [keysOf, List.map_cons]
    cases hk : e.keyOf field with
    | error f =>
      refine ⟨by rintro ⟨⟩, fun h => ?_⟩
      cases keys with
      | nil => obtain ⟨⟩ := h
      | cons key keys =>
        have hkey := Entity.keyOf_eq_ok_iff.mpr (List.cons.inj h).1
        obtain ⟨⟩ := hk.symm.trans hkey
    | ok key =>
      rw [Entity.keyOf_eq_ok_iff.mp hk]
      dsimp only
      rw [map_eq_ok]
      constructor
      · rintro ⟨keys, hr, rfl⟩
        rw [ih.mp hr, List.map_cons]
      · intro h
        cases keys with
        | nil => obtain ⟨⟩ := h
        | cons key' keys =>
          obtain ⟨hkey, hr⟩ := List.cons.inj h
          exact ⟨keys, ih.mpr hr, by rw [Option.some.inj hkey]⟩

/-! ## Each once -/

/-- Members have different primary keys. -/
theorem Valid.pairwise_key (h : c.Valid) (hp : c.primaryKey = some field) :
    c.rows.Pairwise fun a b => a.key? field ≠ b.key? field := by
  rw [rows, List.pairwise_map, members_eq, List.pairwise_filterMap]
  refine List.nodup_range.imp fun {s t} hst m hm n hn he => hst ?_
  obtain ⟨key, hk⟩ := h.keyed field (.inl hp) m (mem_members_iff.mpr ⟨s, hm⟩)
  have hk' := Entity.keyOf_eq_ok_iff.mpr (he ▸ Entity.keyOf_eq_ok_iff.mp hk)
  exact h.eq_of_mem_slotsWith hp (mem_slotsWith.mpr ⟨m, hm, hk⟩) (mem_slotsWith.mpr ⟨n, hn, hk'⟩)

theorem nodup_firstOccurrences (seen keys : List IndexKey) : (firstOccurrences seen keys).Nodup := by
  induction keys generalizing seen with
  | nil => exact List.nodup_nil
  | cons key rest ih =>
    rw [firstOccurrences]
    split
    · exact ih seen
    · refine List.nodup_cons.mpr ⟨fun hm => ?_, ih (key :: seen)⟩
      exact (mem_firstOccurrences.mp hm).2 (.head _)

/-- What was seen is skipped. -/
theorem firstOccurrences_eq (seen keys : List IndexKey) :
    firstOccurrences seen keys = (keys.filter fun key => !seen.contains key).eraseDups := by
  induction keys generalizing seen with
  | nil => rfl
  | cons key rest ih =>
    rw [firstOccurrences, List.filter_cons]
    split
    · rename_i hs
      rw [ih, hs]
      rfl
    · rename_i hs
      rw [ih, Bool.eq_false_iff.mpr hs, Bool.not_false, if_pos rfl, List.eraseDups_cons, List.filter_filter]
      refine congrArg (fun l => key :: l.eraseDups) (List.filter_congr fun k _ => ?_)
      rw [List.contains_cons, Bool.not_or]

/-! ## The three ways -/

/-- **The distinct keys of a field** are the keys of the rows there, each once. -/
theorem Valid.exists_distinctKeys (h : c.Valid) (hs : ∀ e ∈ c.rows, (e.key? field).isSome) :
    ∃ keys distinct, c.rows.map (·.key? field) = keys.map some ∧ c.distinctKeys field = .ok distinct ∧
      distinct.Nodup ∧ (∀ key, key ∈ distinct ↔ key ∈ keys) ∧
      (c.primaryKey = some field → distinct = keys) ∧
      (field ∈ c.indexNames → distinct.Pairwise fun a b => a.precedes b = true) ∧
      (¬ c.Tracks field → distinct = keys.eraseDups) := by
  obtain ⟨keys, hkeys⟩ : ∃ keys, keysOf field c.rows = .ok keys :=
    exists_keysOf fun e he => by
      obtain ⟨key, hk⟩ := Option.isSome_iff_exists.mp (hs e he)
      exact ⟨key, Entity.keyOf_eq_ok_iff.mpr hk⟩
  have hrows := keysOf_eq_ok_iff.mp hkeys
  have hmem : ∀ {distinct}, c.distinctKeys field = .ok distinct →
      ∀ key, key ∈ distinct ↔ key ∈ keys := fun hd key => by
    rw [h.mem_distinctKeys hd, mem_keysOf hkeys, exists_mem_rows]
  by_cases hp : c.primaryKey = some field
  · have hd : c.distinctKeys field = .ok keys := by rw [distinctKeys, if_pos hp, hkeys]
    refine ⟨keys, keys, hrows, hd, ?_, fun _ => Iff.rfl, fun _ => rfl, fun hn => ?_, fun hn => ?_⟩
    · have hne : (c.rows.map (·.key? field)).Nodup := List.pairwise_map.mpr (h.pairwise_key hp)
      rw [hrows] at hne
      exact hne.of_map
    · exact absurd hn (h.keyApart field hp)
    · exact absurd (.inl hp) hn
  · cases hi : c.indexes.get? field with
    | some index =>
      have hd : c.distinctKeys field = .ok index.keys := by rw [distinctKeys, if_neg hp, hi]
      have hasc : index.keys.Pairwise fun a b => a.precedes b = true :=
        List.pairwise_map.mpr (h.sorted _ (Fields.mem_of_get? hi)).ascending
      refine ⟨keys, index.keys, hrows, hd, hasc.imp IndexKey.ne_of_precedes, hmem hd,
        fun hp' => absurd hp' hp, fun _ => hasc, fun hn => ?_⟩
      exact absurd (.inr (Fields.mem_names_iff.mpr ⟨index, hi⟩)) hn
    | none =>
      have hd : c.distinctKeys field = .ok (firstOccurrences [] keys) := by
        rw [distinctKeys, if_neg hp, hi, hkeys]
        rfl
      refine ⟨keys, _, hrows, hd, nodup_firstOccurrences [] keys, hmem hd, fun hp' => absurd hp' hp,
        fun hn => absurd hn (Fields.get?_eq_none_iff.mp hi), fun _ => ?_⟩
      rw [firstOccurrences_eq]
      simp

open Operation (runAll onCollection KeepAll)

/-- **Three ways to the distinct values of a field, and one answer.**  After any operations that keep the keys
of edited members, a field with a scalar value in every row has distinct values: none of them twice, and exactly
those of the keys that the rows have there.  They come in the order of the rows if the field is the primary key,
in ascending order of the keys if it has an index, and otherwise in the order of their first appearance. -/
theorem distinctValues_runAll (origin : Option Origin) (ops : List Operation)
    (hk : KeepAll (empty origin) ops) (field : String)
    (hs : ∀ e ∈ (runAll onCollection ops (empty origin)).2.rows, (e.key? field).isSome) :
    let c := (runAll onCollection ops (empty origin)).2
    ∃ (keys : List IndexKey) (values : List Value),
      c.rows.map (·.key? field) = keys.map some ∧ c.distinctValues field = .ok values ∧ values.Nodup ∧
      (∀ v, v ∈ values ↔ ∃ key ∈ keys, v = key.toValue) ∧
      (c.primaryKey = some field → values = keys.map IndexKey.toValue) ∧
      (field ∈ c.indexNames → ∃ ascending : List IndexKey,
        ascending.Pairwise (fun a b => a.precedes b = true) ∧ values = ascending.map IndexKey.toValue) ∧
      (c.primaryKey ≠ some field → field ∉ c.indexNames →
        values = keys.eraseDups.map IndexKey.toValue) := by
  intro c
  have hc : c.Valid := ((consistent_empty origin).follows_runAll hk).2.1.toValid
  obtain ⟨keys, distinct, hrows, hd, hnodup, hmem, hprimary, hindex, hother⟩ := hc.exists_distinctKeys hs
  refine ⟨keys, distinct.map IndexKey.toValue, hrows, ?_, hnodup.map IndexKey.toValue_injective, fun v => ?_,
    fun hp => ?_, fun hi => ⟨distinct, hindex hi, rfl⟩, fun hp hi => ?_⟩
  · rw [distinctValues, hd]
    rfl
  · simp only [List.mem_map, hmem, eq_comm]
  · rw [hprimary hp]
  · rw [hother (not_or.mpr ⟨hp, hi⟩)]

/-- Three rows of two counties: the first is removed and comes back behind the others. -/
def counties : List Operation :=
  let leeds : Member := ⟨0, [("id", .plain (.string "a")), ("county", .plain (.int 5))]⟩
  let hull : Member := ⟨1, [("id", .plain (.string "b")), ("county", .plain (.int 6))]⟩
  let goole : Member := ⟨2, [("id", .plain (.string "c")), ("county", .plain (.int 6))]⟩
  [.setPrimaryKey "id", .addIndex "county", .add leeds, .add hull, .add goole, .remove leeds, .add leeds]

/-- The index gives the lesser county first, though its row comes last. -/
theorem distinctValues_counties :
    let c := (runAll onCollection counties (empty none)).2
    c.distinctValues "county" = .ok [.int 5, .int 6] ∧
      ∃ keys : List IndexKey, c.rows.map (·.key? "county") = keys.map some ∧
        ∀ v, v ∈ [Value.int 5, .int 6] ↔ ∃ key ∈ keys, v = key.toValue := by
  have hk : KeepAll (empty none) counties := ⟨trivial, trivial, trivial, trivial, trivial, trivial, trivial, trivial⟩
  have hd : (runAll onCollection counties (empty none)).2.distinctValues "county" =
    .ok [.int 5, .int 6] := rfl
  obtain ⟨keys, values, hrows, hv, -, hmem, -⟩ :=
    distinctValues_runAll none counties hk "county" (by decide)
  obtain rfl := Except.ok.inj (hv.symm.trans hd)
  exact ⟨hd, keys, hrows, hmem⟩

end Collection

end PathQuery
