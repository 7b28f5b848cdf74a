import PathQuery.Proofs.Number.Nearest
import PathQuery.Proofs.Result.Distinct
import PathQuery.Store.Match

/-!
# Proofs/Integers — which integers are one as keys, and which are one in conditions

A document holds integers of 64 bits, signed or unsigned.  Those of a signed word are kept apart everywhere.
Beyond, a key is cut to the greatest signed word (`Number.truncated_int`), so all greater integers are one key;
and conditions compare the nearest doubles (`Number.compare_int`), which never turns the order of two integers
round but makes some of them equal.
-/

namespace PathQuery

/-! ## Numbers -/

namespace Number

/-- An integer of a signed or an unsigned word. -/
def FitsWord (i : Int) : Prop := leastWord ≤ i ∧ i < wordCount

instance (i : Int) : Decidable (FitsWord i) := inferInstanceAs (Decidable (_ ∧ _))

variable {i j : Int}

theorem FitsWord.natAbs_lt (h : FitsWord i) : i.natAbs < wordCount := by
  obtain ⟨hlow, hhigh⟩ := h
  rw [leastWord] at hlow
  rw [wordCount] at hhigh ⊢
  omega

theorem word?_of_le (h : FitsWord i) (hi : i ≤ greatestWord) : (Number.int i).word? = some i :=
  if_pos ⟨h.1, hi⟩

theorem word?_of_lt (hi : greatestWord < i) : (Number.int i).word? = none :=
  if_neg fun h => Int.not_le.mpr hi h.2

/-- An integer beyond the signed words is rounded to one beyond them. -/
theorem greatestWord_lt_nearestInt (hi : greatestWord < i) : greatestWord < nearestInt i := by
  have hpower : nearestInt (greatestWord + 1) = greatestWord + 1 := by decide
  have hmono := nearestInt_mono (Int.add_one_le_of_lt hi)
  omega

/-- **A key is an integer up to the greatest signed word**, and that word beyond it. -/
theorem truncated_int (h : FitsWord i) : (Number.int i).truncated = min i greatestWord := by
  rw [truncated]
  rcases lt_or_ge greatestWord i with hi | hi
  · have hround := greatestWord_lt_nearestInt hi
    rw [word?_of_lt hi, Option.getD_none, toReal, Binary64.truncate_ofInt h.natAbs_lt, clampWord,
      min_eq_left (Int.le_of_lt hround), min_eq_right (Int.le_of_lt hi)]
    decide
  · rw [word?_of_le h hi, Option.getD_some, min_eq_left hi]

/-- Rounding does not turn the order round. -/
theorem compare_nearestInt (i j : Int) :
    Ord.compare (nearestInt i) (nearestInt j) =
      if nearestInt i = nearestInt j then .eq else Ord.compare i j := by
  split
  · rename_i h
    rw [h, compare_eq_iff_eq.mpr rfl]
  · rename_i hne
    rcases Int.lt_trichotomy i j with h | h | h
    · rw [compare_lt_iff_lt.mpr h, compare_lt_iff_lt]
      exact lt_of_le_of_ne (nearestInt_mono (Int.le_of_lt h)) hne
    · exact absurd (congrArg nearestInt h) hne
    · rw [compare_gt_iff_gt.mpr h, compare_gt_iff_gt]
      exact lt_of_le_of_ne (nearestInt_mono (Int.le_of_lt h)) (Ne.symm hne)

/-- **Integers are compared exactly**, but for two that are rounded to one double. -/
theorem compare_int (hi : FitsWord i) (hj : FitsWord j) :
    (Number.int i).compare (.int j) =
      if (greatestWord < i ∨ greatestWord < j) ∧ nearestInt i = nearestInt j then .eq
      else Ord.compare i j := by
  have hreal : (Number.int i).toReal.compare (Number.int j).toReal =
      if nearestInt i = nearestInt j then .eq else Ord.compare i j :=
    (Binary64.compare_ofInt hi.natAbs_lt hj.natAbs_lt).trans (compare_nearestInt i j)
  rw [compare]
  rcases lt_or_ge greatestWord i with h | h
  · rw [word?_of_lt h]
    simp [hreal, h]
  · rcases lt_or_ge greatestWord j with h' | h'
    · rw [word?_of_lt h', word?_of_le hi h]
      simp [hreal, h']
    · rw [word?_of_le hi h, word?_of_le hj h', if_neg]
      rintro ⟨hlt | hlt, -⟩
      · exact Int.not_le.mpr hlt h
      · exact Int.not_le.mpr hlt h'

end Number

/-! ## Keys and conditions -/

open Number (FitsWord)

variable {a b : Int}

/-- Integers are one key if they are the same, or neither is less than the greatest signed word. -/
theorem IndexKey.ofValue?_int_inj (ha : FitsWord a) (hb : FitsWord b) :
    ofValue? (.int a) = ofValue? (.int b) ↔ a = b ∨ greatestWord ≤ a ∧ greatestWord ≤ b := by
  have hkey : ∀ {i}, FitsWord i → ofValue? (.int i) = some (.int (min i greatestWord)) := fun h =>
    congrArg (some ∘ IndexKey.int) (Number.truncated_int h)
  rw [hkey ha, hkey hb, Option.some.injEq, IndexKey.int.injEq]
  omega

/-- A comparison of two numbers asks for their order. -/
theorem Condition.holds_number (op : Filter.Comparison) (x y : Number) :
    (Condition.compare op (.number y)).holds (.number x) = holdsFor op (x.compare y) := by
  cases op with
  | eq => change (x.compare y == .eq) = (x.compare y).isEq; cases x.compare y <;> rfl
  | ne => change (!(x.compare y == .eq)) = (x.compare y).isNe; cases x.compare y <;> rfl
  | _ => rfl

/-! ## Two members -/

namespace Collection

variable {c : Collection} {field : String} {m n : Member} {key : IndexKey}

theorem present_iff_key? (hp : c.primaryKey = some field) (hk : m.entity.key? field = some key) :
    c.Present m ↔ ∃ e ∈ c.rows, e.key? field = some key := by
  simp only [Present, hp, Entity.keyOf_eq_ok_iff, hk, Option.some.injEq, exists_eq_left', rows, List.mem_map,
    exists_exists_and_eq_and]

/-- A member of a new key comes to the end. -/
theorem Valid.exists_addNew (h : c.Valid) (hp : c.primaryKey = some field)
    (hk : m.entity.key? field = some key) (hi : ∀ f ∈ c.indexNames, (m.entity.key? f).isSome)
    (hnew : ∀ e ∈ c.rows, e.key? field ≠ some key) : ∃ b d, c.add m = .ok (b, d) ∧ c.Added m d := by
  obtain ⟨b, d, hadd⟩ : ∃ b d, c.add m = .ok (b, d) := by
    refine exists_add fun f hf => ?_
    have hsome : (m.entity.key? f).isSome := by
      rcases hf with hf | hf
      · cases hp.symm.trans hf
        rw [hk, Option.isSome_some]
      · exact hi f hf
    obtain ⟨k, hk⟩ := Option.isSome_iff_exists.mp hsome
    exact ⟨k, Entity.keyOf_eq_ok_iff.mpr hk⟩
  refine ⟨b, d, hadd, (h.add_cases hadd).resolve_left fun ⟨hpresent, _⟩ => ?_⟩
  obtain ⟨e, he, hke⟩ := (present_iff_key? hp hk).mp hpresent
  exact hnew e he hke

/-- A member whose key is there changes nothing. -/
theorem Valid.add_of_key (h : c.Valid) (hp : c.primaryKey = some field)
    (hk : m.entity.key? field = some key) (hold : ∃ e ∈ c.rows, e.key? field = some key) :
    c.add m = .ok (false, c) := by
  have hkey := Entity.keyOf_eq_ok_iff.mpr hk
  have hslot := (h.present_iff hp hkey).mp ((present_iff_key? hp hk).mpr hold)
  simp only [add, hp, hkey, if_pos hslot]

/-- **Two new members are both kept** exactly if their keys differ. -/
theorem Valid.exists_addAll_pair (h : c.Valid) {k l : IndexKey} (hp : c.primaryKey = some field)
    (hm : m.entity.key? field = some k) (hn : n.entity.key? field = some l)
    (hi : ∀ f ∈ c.indexNames, (m.entity.key? f).isSome ∧ (n.entity.key? f).isSome)
    (hnew : ∀ e ∈ c.rows, e.key? field ≠ some k ∧ e.key? field ≠ some l) :
    ∃ d, c.addAll [m, n] = (.ok (), d) ∧
      d.rows = c.rows ++ if k = l then [m.entity] else [m.entity, n.entity] := by
  obtain ⟨b, d, hadd, hd⟩ := h.exists_addNew hp hm (fun f hf => (hi f hf).1) fun e he => (hnew e he).1
  have hrows := rows_of_slots hd.slots_eq
  obtain ⟨-, hkey, hnames⟩ := layout_eq_iff.mp hd.layout_eq
  by_cases hkl : k = l
  · have hadd' : d.add n = .ok (false, d) := by
      refine hd.valid.add_of_key (hkey.trans hp) hn ⟨m.entity, ?_, hkl ▸ hm⟩
      rw [hrows]
      exact List.mem_append_right _ (.head _)
    exact ⟨d, by simp only [addAll, hadd, hadd'], by rw [hrows, if_pos hkl]⟩
  · obtain ⟨b', d', hadd', hd'⟩ := hd.valid.exists_addNew (hkey.trans hp) hn
      (fun f hf => (hi f (hnames ▸ hf)).2) fun e he => by
        rw [hrows, List.mem_append, List.mem_singleton] at he
        rcases he with he | rfl
        · exact (hnew e he).2
        · exact fun hl => hkl (Option.some.inj (hm.symm.trans hl))
    refine ⟨d', by simp only [addAll, hadd, hadd'], ?_⟩
    rw [rows_of_slots hd'.slots_eq, hrows, if_neg hkl, List.append_assoc]
    rfl

end Collection

/-! ## The main statement -/

open Collection (empty)
open Operation (runAll onCollection KeepAll)

/-- **Integers as keys and in conditions.**  Two integers of 64 bits are one key exactly if they are the same or
neither is less than the greatest signed word, and exactly then a collection with a primary key keeps only the
first of two rows that have them.  A comparison is answered as the integers compare, unless one of them is beyond
the signed words and both are rounded to one double: then it is answered as for equals. -/
theorem integers_as_keys_and_operands (ha : FitsWord a) (hb : FitsWord b) :
    (IndexKey.ofValue? (.int a) = IndexKey.ofValue? (.int b) ↔
      a = b ∨ greatestWord ≤ a ∧ greatestWord ≤ b) ∧
    (∀ origin ops, KeepAll (empty origin) ops →
      let c := (runAll onCollection ops (empty origin)).2
      ∀ (field : String) (m n : Member), c.primaryKey = some field →
        m.entity.value? field = some (.int a) → n.entity.value? field = some (.int b) →
        (∀ f ∈ c.indexNames, (m.entity.key? f).isSome ∧ (n.entity.key? f).isSome) →
        (∀ e ∈ c.rows, e.key? field ≠ IndexKey.ofValue? (.int a) ∧
          e.key? field ≠ IndexKey.ofValue? (.int b)) →
        ∃ d, c.addAll [m, n] = (.ok (), d) ∧ d.rows = c.rows ++
          if a = b ∨ greatestWord ≤ a ∧ greatestWord ≤ b then [m.entity] else [m.entity, n.entity]) ∧
    ∀ op, (Condition.compare op (.int b)).holds (.int a) = Condition.holdsFor op
      (if (greatestWord < a ∨ greatestWord < b) ∧ nearestInt a = nearestInt b then .eq
      else Ord.compare a b) := by
  have hinj := IndexKey.ofValue?_int_inj ha hb
  refine ⟨hinj, fun origin ops hk field m n hp hm hn hi hnew => ?_, fun op => ?_⟩
  · have hc := ((Collection.consistent_empty origin).follows_runAll hk).2.1.toValid
    have hmk : m.entity.key? field = some (.int (Number.int a).truncated) := by
      rw [Entity.key?, hm]
      rfl
    have hnk : n.entity.key? field = some (.int (Number.int b).truncated) := by
      rw [Entity.key?, hn]
      rfl
    obtain ⟨d, hadd, hrows⟩ := hc.exists_addAll_pair hp hmk hnk hi hnew
    refine ⟨d, hadd, hrows.trans (congrArg _ (if_congr ?_ rfl rfl))⟩
    exact Option.some_inj.symm.trans hinj
  · exact (Condition.holds_number op _ _).trans (congrArg _ (Number.compare_int ha hb))

/-- A row of a number and nothing else. -/
def numbered (i : Int) : Member := ⟨i.natAbs, [("id", .plain (.int i))]⟩

/-- The least and the greatest integer beyond the signed words are told apart by conditions, and are one
key. -/
theorem integers_as_keys_and_operands_ends :
    (FitsWord 0x8000000000000000 ∧ FitsWord 0xffffffffffffffff) ∧
    (Condition.compare .lt (.int 0xffffffffffffffff)).holds (.int 0x8000000000000000) = true ∧
    ∃ d, (runAll onCollection [.setPrimaryKey "id"] (empty none)).2.addAll
        [numbered 0x8000000000000000, numbered 0xffffffffffffffff] = (.ok (), d) ∧
      d.rows = [(numbered 0x8000000000000000).entity] := by
  have ha : FitsWord 0x8000000000000000 := by decide
  have hb : FitsWord 0xffffffffffffffff := by decide
  obtain ⟨-, hrows, hholds⟩ := integers_as_keys_and_operands ha hb
  refine ⟨⟨ha, hb⟩, (hholds .lt).trans (by decide), ?_⟩
  exact hrows none [.setPrimaryKey "id"] ⟨trivial, trivial⟩ "id" _ _ rfl rfl rfl (by decide) (by decide)

/-- **Integers do not always keep their identity**: two that differ are one key, so a row is dropped, and they are
equal in conditions. -/
theorem exists_integers_merged : ∃ a b : Int, FitsWord a ∧ FitsWord b ∧ a ≠ b ∧
    IndexKey.ofValue? (.int a) = IndexKey.ofValue? (.int b) ∧
    (Condition.compare .eq (.int b)).holds (.int a) = true ∧
    ∃ d, ((empty none).withPrimaryKey "id").addAll [numbered a, numbered b] = (.ok (), d) ∧
      d.rows = [(numbered a).entity] :=
  ⟨0x8000000000000000, 0x8000000000000001, by decide, by decide, by decide, by decide, by decide, _, rfl, rfl⟩

end PathQuery
