import Mathlib.Data.List.Induction
import PathQuery.Proofs.Fields
import PathQuery.Proofs.Store.Restriction

/-!
# Proofs/Store/Clauses — a map of conditions that is changed in place, and a refused condition leaves no trace

    restriction ──change──▸ restriction
        │ clauses               │ clauses
        ▾                       ▾
       map   ───change──▸      map

A restriction is one list of conditions.  Kept as a map from fields to conditions, it lists a field before it
is known whether the condition that comes to it conflicts (`Clauses.insert`).  The two stay in step
(`Change.onClauses_clauses`): only a field that is listed already can refuse a condition, so a refusal leaves
the map as it was.
-/

namespace PathQuery

/-! ## Names in alphabetical order -/

namespace Names

variable {name : String} {names : List String}

/-- Names in alphabetical order, none of them twice. -/
def Sorted (names : List String) : Prop := names.Pairwise fun a b => String.compare a b = .lt

theorem Sorted.insert (h : Sorted names) (name : String) : Sorted (insert name names) := by
  have := (String.instTransOrd : Std.TransCmp String.compare)
  have := (String.instLawfulEqOrd : Std.LawfulEqCmp String.compare)
  induction names with
  | nil => exact List.pairwise_singleton _ _
  | cons first rest ih =>
    obtain ⟨hfirst, hrest⟩ := List.pairwise_cons.mp h
    rw [Names.insert]
    split
    · exact h
    · rename_i hne
      split
      · rename_i hlt
        have hlt := Ordering.isLT_iff_eq_lt.mp hlt
        refine List.pairwise_cons.mpr ⟨List.forall_mem_cons.mpr ⟨hlt, fun other ho => ?_⟩, h⟩
        exact Std.TransCmp.lt_trans hlt (hfirst other ho)
      · rename_i hnlt
        refine List.pairwise_cons.mpr ⟨fun other ho => ?_, ih hrest⟩
        rcases mem_insert.mp ho with rfl | ho
        · cases hc : String.compare other first with
          | lt => exact absurd (Ordering.isLT_iff_eq_lt.mpr hc) hnlt
          | eq => exact absurd (Std.LawfulEqCmp.eq_of_compare hc) hne
          | gt => exact Std.OrientedCmp.lt_of_gt hc
        · exact hfirst other ho

theorem sorted_ofList (names : List String) : Sorted (ofList names) := by
  rw [ofList]
  induction names using List.reverseRecOn with
  | nil => exact List.Pairwise.nil
  | append_singleton names name ih =>
    rw [List.foldl_append]
    exact ih.insert name

/-- A name that is there already is not put again. -/
theorem Sorted.insert_of_mem (h : Sorted names) (hm : name ∈ names) : Names.insert name names = names := by
  have := (String.instTransOrd : Std.TransCmp String.compare)
  induction names with
  | nil => obtain ⟨⟩ := hm
  | cons first rest ih =>
    obtain ⟨hfirst, hrest⟩ := List.pairwise_cons.mp h
    rw [Names.insert]
    split
    · rfl
    · rename_i hne
      have hm := (List.mem_cons.mp hm).resolve_left hne
      rw [Std.OrientedCmp.gt_of_lt (hfirst name hm), ih hrest hm]
      rfl

/-- A map over names has the value of a name that is listed. -/
theorem get?_map {α : Type} (f : String → α) (names : List String) (name : String) :
    Fields.get? (names.map fun n => (n, f n)) name = if name ∈ names then some (f name) else none := by
  induction names with
  | nil => rfl
  | cons first rest ih =>
    rw [List.map_cons, Fields.get?, ih]
    by_cases h : first = name
    · subst h; simp
    · simp [h, Ne.symm h]

/-- A name that is listed gets a new value, and the others keep theirs. -/
theorem Sorted.set_map {α : Type} (h : Sorted names) (f : String → α) (hm : name ∈ names) (v : α) :
    Fields.set (names.map fun n => (n, f n)) name v =
      names.map fun n => (n, if n = name then v else f n) := by
  have := (String.instTransOrd : Std.TransCmp String.compare)
  induction names with
  | nil => obtain ⟨⟩ := hm
  | cons first rest ih =>
    obtain ⟨hfirst, hrest⟩ := List.pairwise_cons.mp h
    rw [List.map_cons, List.map_cons, Fields.set]
    split
    · rename_i hn
      refine congrArg₂ List.cons rfl (List.map_congr_left fun n hmem => ?_)
      have hne : n ≠ name := by
        rintro rfl
        have hself : String.compare n n = .eq := Std.ReflCmp.compare_self
        have hlt : String.compare n n = .lt := hn ▸ hfirst n hmem
        obtain ⟨⟩ := hself.symm.trans hlt
      rw [if_neg hne]
    · rename_i hn
      rw [ih hrest ((List.mem_cons.mp hm).resolve_left (Ne.symm hn))]

end Names

/-! ## The map -/

/-- Conditions by field, the fields in alphabetical order.  A field may be listed without conditions. -/
abbrev Clauses := Fields (List Condition)

namespace Clauses

/-- Lists a new field in its place, without conditions. -/
def place (field : String) : Clauses → Clauses
  | [] => [(field, [])]
  | (other, conditions) :: rest =>
    if (String.compare field other).isLT then (field, []) :: (other, conditions) :: rest
    else (other, conditions) :: place field rest

/-- Lists a field, without conditions if it is new. -/
def enter (m : Clauses) (field : String) : Clauses := if m.has field then m else place field m

/-- The conditions on a field. -/
def on (m : Clauses) (field : String) : List Condition := (m.get? field).getD []

/-- Appends a condition to those of a field. -/
def push (m : Clauses) (field : String) (c : Condition) : Clauses := m.set field (m.on field ++ [c])

/-- The written form of the map. -/
def toValue (m : Clauses) : Value :=
  .object (m.map fun (field, conditions) => (field, Restriction.writtenClause conditions))

/-- Adds a condition to its field, which is listed before the condition is held against the others. -/
def insert (m : Clauses) (field : String) (c : Condition) : Except Failure Unit × Clauses :=
  let m := m.enter field
  if (m.on field).any (·.conflicts c) then
    (.error (.predicate (.conflict field c.operatorName ((m.on field).map Condition.operatorName))), m)
  else (.ok (), m.push field c)

/-- Restricts a field to some values, on top of the conditions it has. -/
def restrictTo (m : Clauses) (field : String) (values : List Value) : Clauses :=
  (m.enter field).push field (.oneOf values)

/-- A field that is not listed comes to its place. -/
theorem place_map (f : String → List Condition) {field : String} (hf : f field = []) (names : List String)
    (h : field ∉ names) :
    place field (names.map fun n => (n, f n)) = (Names.insert field names).map fun n => (n, f n) := by
  induction names with
  | nil => rw [Names.insert, List.map_singleton, hf]; rfl
  | cons first rest ih =>
    obtain ⟨hne, hrest⟩ := not_or.mp fun hm => h (List.mem_cons.mpr hm)
    rw [List.map_cons, place, Names.insert, if_neg hne]
    split
    · rw [List.map_cons, List.map_cons, hf]
    · rw [ih hrest, List.map_cons]

end Clauses

/-! ## Changes -/

/-- A change of a restriction. -/
inductive Change where
  | insert (field : String) (c : Condition)
  | restrictTo (field : String) (values : List Value)

namespace Change

/-- A change of the map, in place. -/
def onClauses : Change → Clauses → Except Failure Unit × Clauses
  | insert field c, m => m.insert field c
  | restrictTo field values, m => (.ok (), m.restrictTo field values)

/-- The same change of a restriction, which is kept where the change fails. -/
def onRestriction : Change → Restriction → Except Failure Unit × Restriction
  | insert field c, r =>
    match r.insert field c with
    | .ok s => (.ok (), s)
    | .error f => (.error f, r)
  | restrictTo field values, r => (.ok (), r.restrictTo field values)

/-- Changes one after the other, whether they fail or not. -/
def runAll {σ : Type} (step : Change → σ → Except Failure Unit × σ) (changes : List Change) (s : σ) : σ :=
  changes.foldl (fun s change => (step change s).2) s

end Change

/-- A restriction is read off a map. -/
structure Mirrors (m : Clauses) (r : Restriction) : Prop where
  clauses_eq : r.clauses = m
  isEmpty_eq : r.isEmpty = m.isEmpty
  on_eq : ∀ field, r.on field = m.on field
  toValue_eq : r.toValue = m.toValue

/-! ## The map of a restriction -/

namespace Restriction

variable {r : Restriction} {field : String} {c : Condition}

theorem mem_fields_iff : field ∈ r.fields ↔ r.on field ≠ [] := by
  rw [fields, Names.mem_ofList, List.mem_map]
  constructor
  · rintro ⟨⟨_, c⟩, hc, rfl⟩
    exact List.ne_nil_of_mem (mem_on.mpr hc)
  · intro h
    obtain ⟨c, hc⟩ := List.exists_mem_of_ne_nil _ h
    exact ⟨(field, c), mem_on.mp hc, rfl⟩

theorem fields_push (r : Restriction) (field : String) (c : Condition) :
    (r.push field c).fields = Names.insert field r.fields := by
  simp [fields, push, Names.ofList, List.foldl_append]

theorem sorted_fields (r : Restriction) : Names.Sorted r.fields := Names.sorted_ofList _

theorem on_clauses (r : Restriction) (field : String) : Clauses.on r.clauses field = r.on field := by
  rw [Clauses.on, clauses, Names.get?_map]
  split
  · rfl
  · rename_i h
    exact (not_not.mp (mem_fields_iff.not.mp h)).symm

theorem isEmpty_clauses (r : Restriction) : r.clauses.isEmpty = r.isEmpty := by
  have hiff : r.fields = [] ↔ r.conditions = [] := by
    simp only [List.eq_nil_iff_forall_not_mem, fields, Names.mem_ofList, List.mem_map, not_exists, not_and]
    exact ⟨fun h c hc => h c.1 c hc rfl, fun h _ c hc => absurd hc (h c)⟩
  rw [Bool.eq_iff_iff, List.isEmpty_iff, clauses, List.map_eq_nil_iff, hiff, isEmpty, List.isEmpty_iff]

theorem mirrors_clauses (r : Restriction) : Mirrors r.clauses r where
  clauses_eq := rfl
  isEmpty_eq := (isEmpty_clauses r).symm
  on_eq field := (on_clauses r field).symm
  toValue_eq := by rw [toValue, Clauses.toValue]

/-- Listing a field lists it once, in its place. -/
theorem enter_clauses (r : Restriction) (field : String) :
    Clauses.enter r.clauses field = (Names.insert field r.fields).map fun n => (n, r.on n) := by
  rw [Clauses.enter, Fields.has, clauses, Names.get?_map]
  by_cases h : field ∈ r.fields
  · rw [if_pos h, (sorted_fields r).insert_of_mem h]
    rfl
  · rw [if_neg h]
    exact Clauses.place_map r.on (not_not.mp (mem_fields_iff.not.mp h)) r.fields h

/-- **A further condition** changes the map at its own field, which is listed first. -/
theorem clauses_push (r : Restriction) (field : String) (c : Condition) :
    (r.push field c).clauses = (Clauses.enter r.clauses field).push field c := by
  have hs : Names.Sorted (Names.insert field r.fields) := (sorted_fields r).insert field
  have hm : field ∈ Names.insert field r.fields := Names.mem_insert.mpr (.inl rfl)
  rw [Clauses.push, Clauses.on, enter_clauses, Names.get?_map, if_pos hm, Option.getD_some,
    hs.set_map r.on hm, clauses, fields_push]
  refine List.map_congr_left fun n _ => ?_
  rw [on_push]
  by_cases hn : n = field
  · rw [if_pos hn, if_pos hn.symm, hn]
  · rw [if_neg hn, if_neg (Ne.symm hn), List.append_nil]

/-- Only a field that is listed already refuses a condition. -/
theorem enter_clauses_of_mem (h : r.on field ≠ []) : Clauses.enter r.clauses field = r.clauses := by
  rw [enter_clauses, (sorted_fields r).insert_of_mem (mem_fields_iff.mpr h)]
  rfl

/-- **The map is changed as the restriction is**, and where a condition is refused it stays. -/
theorem insert_clauses (r : Restriction) (field : String) (c : Condition) :
    Clauses.insert r.clauses field c =
      match r.insert field c with
      | .ok s => (.ok (), s.clauses)
      | .error f => (.error f, r.clauses) := by
  have hon : Clauses.on (Clauses.enter r.clauses field) field = r.on field := by
    rw [Clauses.on, enter_clauses, Names.get?_map, if_pos (Names.mem_insert.mpr (.inl rfl))]
    rfl
  simp only [Clauses.insert, hon, insert]
  split
  · rename_i hany
    have hne : r.on field ≠ [] := by
      obtain ⟨d, hd, -⟩ := List.any_eq_true.mp hany
      exact List.ne_nil_of_mem hd
    rw [enter_clauses_of_mem hne]
  · exact congrArg _ (clauses_push r field c).symm

end Restriction

namespace Change

open Restriction

/-- One change comes to the same on a restriction and on its map. -/
theorem onClauses_clauses (change : Change) (r : Restriction) :
    change.onClauses r.clauses = ((change.onRestriction r).1, (change.onRestriction r).2.clauses) := by
  cases change with
  | insert field c =>
    rw [onClauses, onRestriction, insert_clauses]
    cases r.insert field c <;> rfl
  | restrictTo field values =>
    rw [onClauses, onRestriction, Restriction.restrictTo, clauses_push]
    rfl

/-- So do changes one after the other. -/
theorem runAll_clauses (changes : List Change) (r : Restriction) :
    runAll onClauses changes r.clauses = (runAll onRestriction changes r).clauses := by
  rw [runAll, runAll]
  induction changes generalizing r with
  | nil => rfl
  | cons change rest ih => rw [List.foldl_cons, onClauses_clauses, ih, List.foldl_cons]

end Change

/-! ## The main statement -/

namespace Restriction

open Change (runAll onClauses onRestriction)

variable {ps qs : List (String × Condition)}

/-- **Inserted conditions commute, and a refused one leaves no trace.**  A list of conditions is inserted
exactly if on each field the operators differ and an equality is alone, so in one order exactly if in another;
either way the same documents are admitted, those of which every condition holds.  And whatever was changed
before, the map that stands for the restriction is left as it was by a condition that is refused. -/
theorem insertAll_of_perm (hp : ps.Perm qs) :
    ((∃ r, none.insertAll ps = .ok r) ↔ Compatible ps) ∧
      ((∃ s, none.insertAll qs = .ok s) ↔ Compatible ps) ∧
      (∀ r s, none.insertAll ps = .ok r → none.insertAll qs = .ok s → ∀ doc,
        (r.admits doc = true ↔ ∀ p ∈ ps, p.2.holdsAt (doc.lookup p.1) = true) ∧
          s.admits doc = r.admits doc) ∧
      ∀ changes : List Change,
        let r := runAll onRestriction changes none
        let m := runAll onClauses changes []
        Mirrors m r ∧ ∀ field c f, (m.insert field c).1 = .error f →
          r.insert field c = .error f ∧ (m.insert field c).2 = m := by
  have hall : ∀ l : List (String × Condition), (∃ r, none.insertAll l = .ok r) ↔ Peaceful l := fun l =>
    ⟨fun ⟨_, h⟩ => (insertAll_none_eq_ok_iff.mp h).1,
      fun h => ⟨_, insertAll_none_eq_ok_iff.mpr ⟨h, rfl⟩⟩⟩
  have hpeace : Peaceful qs ↔ Peaceful ps := ⟨fun h => h.of_perm hp.symm, fun h => h.of_perm hp⟩
  refine ⟨(hall ps).trans peaceful_iff, (hall qs).trans (hpeace.trans peaceful_iff), ?_, ?_⟩
  · intro r s hr hs doc
    obtain ⟨-, rfl⟩ := insertAll_none_eq_ok_iff.mp hr
    obtain ⟨-, rfl⟩ := insertAll_none_eq_ok_iff.mp hs
    exact ⟨admits_iff, hp.symm.all_eq⟩
  · intro changes
    have hm : runAll onClauses changes [] = (runAll onRestriction changes none).clauses :=
      Change.runAll_clauses changes none
    simp only [hm]
    refine ⟨mirrors_clauses _, fun field c f h => ?_⟩
    rw [insert_clauses] at h ⊢
    cases hi : (runAll onRestriction changes none).insert field c with
    | ok s =>
      rw [hi] at h
      obtain ⟨⟩ := h
    | error f' =>
      rw [hi] at h
      exact ⟨congrArg Except.error (Except.error.inj h), rfl⟩

/-- Two bounds of one field, and an equality on another between them. -/
def workers : List (String × Condition) :=
  [("age", .compare .ge (.int 18)), ("town", .compare .eq (.string "Leeds")),
    ("age", .compare .lt (.int 65))]

/-- In the other order they are inserted as well; then a second town is refused. -/
theorem insertAll_of_perm_workers :
    (∃ s, none.insertAll workers.reverse = .ok s ∧
      ∀ doc, s.admits doc = true ↔ ∀ p ∈ workers, p.2.holdsAt (doc.lookup p.1) = true) ∧
    let m := runAll onClauses (workers.reverse.map fun p => .insert p.1 p.2) []
    (m.insert "town" (.compare .ne (.string "York"))).2 = m := by
  obtain ⟨hps, hqs, hsame, hmap⟩ := insertAll_of_perm workers.reverse_perm.symm
  have hr : none.insertAll workers = .ok ⟨workers⟩ := rfl
  obtain ⟨s, hs⟩ := hqs.mpr (hps.mp ⟨_, hr⟩)
  refine ⟨⟨s, hs, fun doc => ?_⟩, ?_⟩
  · obtain ⟨hmeets, heq⟩ := hsame _ _ hr hs doc
    rw [heq]
    exact hmeets
  · exact ((hmap _).2 "town" _ (.predicate (.conflict "town" "$ne" ["$eq"])) rfl).2

end Restriction

end PathQuery
