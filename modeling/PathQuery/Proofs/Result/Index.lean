import Mathlib.Tactic.Common
import PathQuery.Result.IndexKey

/-!
# Proofs/Result/Index — an index finds the slots that were added under a key

`IndexKey.precedes` is a strict total order, and an index lists its keys in this order, each with at
least one slot (`Index.Sorted`).  On such an index `add` and `drop` change what `slotsOf` finds at
their own key and nowhere else.
-/

namespace PathQuery

namespace IndexKey

/-! ## The order of keys -/

theorem precedes_trans {a b c : IndexKey} (hab : a.precedes b) (hbc : b.precedes c) :
    a.precedes c := by
  cases a <;> cases b <;> cases c <;> simp_all [precedes]
  · omega
  · have := (String.instTransOrd : Std.TransCmp String.compare)
    exact Std.TransCmp.lt_trans hab hbc

/-- Of two different keys one comes before the other. -/
theorem precedes_total {a b : IndexKey} (h : a ≠ b) : a.precedes b ∨ b.precedes a := by
  cases a with
  | null =>
    cases b with
    | null => exact absurd rfl h
    | _ => exact .inl rfl
  | bool x =>
    cases b with
    | null => exact .inr rfl
    | bool y =>
      have hne : x ≠ y := fun he => h (congrArg bool he)
      revert hne
      cases x <;> cases y <;> decide
    | _ => exact .inl rfl
  | int x =>
    cases b with
    | int y =>
      have hne : x ≠ y := fun he => h (congrArg int he)
      simp only [precedes, decide_eq_true_eq]
      omega
    | text => exact .inl rfl
    | _ => exact .inr rfl
  | text x =>
    cases b with
    | text y =>
      have := (String.instTransOrd : Std.TransCmp String.compare)
      have := (String.instLawfulEqOrd : Std.LawfulEqCmp String.compare)
      simp only [precedes]
      cases hxy : String.compare x y with
      | lt => exact .inl rfl
      | eq => exact absurd (congrArg text (Std.LawfulEqCmp.eq_of_compare hxy)) h
      | gt =>
        refine .inr ?_
        rw [Std.OrientedCmp.lt_of_gt hxy]
        rfl
    | _ => exact .inr rfl

theorem ne_of_precedes {a b : IndexKey} (h : a.precedes b) : a ≠ b := by
  rintro rfl
  rw [precedes_self] at h
  exact Bool.false_ne_true h

end IndexKey

namespace Index

/-- Keys in ascending order, none of them without slots. -/
structure Sorted (index : Index) : Prop where
  ascending : index.Pairwise fun a b => a.1.precedes b.1
  inhabited : ∀ entry ∈ index, entry.2 ≠ []

theorem sorted_nil : Sorted [] := ⟨List.Pairwise.nil, by simp⟩

theorem sorted_cons {entry : IndexKey × List Nat} {rest : Index} :
    Sorted (entry :: rest) ↔
      (∀ e ∈ rest, entry.1.precedes e.1) ∧ entry.2 ≠ [] ∧ Sorted rest := by
  constructor
  · rintro ⟨hasc, hin⟩
    obtain ⟨hfirst, hrest⟩ := List.pairwise_cons.mp hasc
    exact ⟨hfirst, hin _ (.head _), hrest, fun e he => hin e (.tail _ he)⟩
  · rintro ⟨hfirst, hne, hrest, hin⟩
    exact ⟨List.pairwise_cons.mpr ⟨hfirst, hrest⟩, List.forall_mem_cons.mpr ⟨hne, hin⟩⟩

/-- A key before the first one of a sorted index is before all of them. -/
theorem Sorted.precedes {entry : IndexKey × List Nat} {rest : Index} (h : Sorted (entry :: rest))
    {key : IndexKey} (hk : key.precedes entry.1) : ∀ e ∈ entry :: rest, key.precedes e.1 :=
  List.forall_mem_cons.mpr ⟨hk, fun e he => IndexKey.precedes_trans hk ((sorted_cons.mp h).1 e he)⟩

/-! ## What is found -/

/-- What changes at one key behind an entry of another key changes there with the entry in front. -/
theorem slotsOf_cons_of_ne {rest rest' : Index} {k key other : IndexKey} {slots : List Nat}
    (change : List Nat → List Nat) (hne : k ≠ key)
    (h : rest'.slotsOf other =
      if key = other then change (rest.slotsOf key) else rest.slotsOf other) :
    slotsOf ((k, slots) :: rest') other =
      if key = other then change (slotsOf ((k, slots) :: rest) key)
      else slotsOf ((k, slots) :: rest) other := by
  rw [slotsOf, h, slotsOf, if_neg hne, slotsOf]
  by_cases hk : k = other
  · subst hk
    rw [if_pos rfl, if_neg (Ne.symm hne), if_pos rfl]
  · rw [if_neg hk, if_neg hk]

/-- A key that is not listed has no slots. -/
theorem slotsOf_eq_nil {index : Index} {key : IndexKey} (h : key ∉ index.keys) :
    index.slotsOf key = [] := by
  induction index with
  | nil => rfl
  | cons entry rest ih =>
    obtain ⟨k, slots⟩ := entry
    simp only [keys, List.map_cons, List.mem_cons, not_or] at h
    rw [slotsOf, if_neg (Ne.symm h.1)]
    exact ih h.2

/-- In a sorted index the listed keys are those with slots. -/
theorem Sorted.mem_keys_iff {index : Index} (h : index.Sorted) (key : IndexKey) :
    key ∈ index.keys ↔ index.slotsOf key ≠ [] := by
  refine ⟨fun hk => ?_, fun hs => by_contra fun hk => hs (slotsOf_eq_nil hk)⟩
  induction index with
  | nil => exact absurd hk (by simp [keys])
  | cons entry rest ih =>
    obtain ⟨k, slots⟩ := entry
    rw [slotsOf]
    split
    · exact h.inhabited _ (List.mem_cons_self ..)
    · rename_i hne
      have hr : key ∈ keys rest := by
        simp only [keys, List.map_cons, List.mem_cons] at hk
        exact hk.resolve_left (Ne.symm hne)
      exact ih (sorted_cons.mp h).2.2 hr

/-- A key before all those of an index is not in it. -/
theorem notMem_keys_of_precedes {index : Index} {key : IndexKey}
    (h : ∀ entry ∈ index, key.precedes entry.1) : key ∉ index.keys := by
  intro hk
  obtain ⟨entry, he, rfl⟩ := List.mem_map.mp hk
  exact IndexKey.ne_of_precedes (h entry he) rfl

/-! ## Adding -/

theorem mem_add {index : Index} {key : IndexKey} {slot : Nat} {entry : IndexKey × List Nat}
    (h : entry ∈ index.add key slot) : entry.1 = key ∨ entry.1 ∈ index.keys := by
  induction index with
  | nil => simp_all [add]
  | cons first rest ih =>
    obtain ⟨k, slots⟩ := first
    simp only [add] at h
    split at h
    · rename_i hk
      rcases List.mem_cons.mp h with rfl | h
      · exact .inl hk
      · exact .inr (List.mem_map_of_mem (f := (·.1)) (List.mem_cons_of_mem _ h))
    · split at h
      · rcases List.mem_cons.mp h with rfl | h
        · exact .inl rfl
        · exact .inr (List.mem_map_of_mem (f := (·.1)) h)
      · rcases List.mem_cons.mp h with rfl | h
        · exact .inr (by simp [keys])
        · exact (ih h).imp id fun hm => by simp only [keys, List.map_cons]; exact .tail _ hm

theorem Sorted.add {index : Index} (h : index.Sorted) (key : IndexKey) (slot : Nat) :
    (index.add key slot).Sorted := by
  induction index with
  | nil => exact sorted_cons.mpr ⟨by simp, by simp, sorted_nil⟩
  | cons first rest ih =>
    obtain ⟨k, slots⟩ := first
    obtain ⟨hfirst, hne, hrest⟩ := sorted_cons.mp h
    simp only [Index.add]
    split
    · exact sorted_cons.mpr ⟨hfirst, by simp, hrest⟩
    · rename_i hkey
      split
      · rename_i hlt
        exact sorted_cons.mpr ⟨h.precedes hlt, by simp, h⟩
      · rename_i hnlt
        refine sorted_cons.mpr ⟨fun e he => ?_, hne, ih hrest⟩
        rcases mem_add he with he | he
        · exact he ▸ (IndexKey.precedes_total hkey).resolve_right hnlt
        · obtain ⟨e', he', heq⟩ := List.mem_map.mp he
          exact heq ▸ hfirst e' he'

/-- **Adding a slot** puts it behind the slots of its key and leaves the other keys alone. -/
theorem Sorted.slotsOf_add {index : Index} (h : index.Sorted) (key : IndexKey) (slot : Nat)
    (other : IndexKey) :
    (index.add key slot).slotsOf other =
      if key = other then index.slotsOf key ++ [slot] else index.slotsOf other := by
  induction index with
  | nil => simp [Index.add, slotsOf]
  | cons first rest ih =>
    obtain ⟨k, slots⟩ := first
    simp only [Index.add]
    split
    · rename_i hk
      subst hk
      by_cases ho : k = other <;> simp [slotsOf, ho]
    · rename_i hne
      split
      · rename_i hlt
        have hnil : slotsOf ((k, slots) :: rest) key = [] :=
          slotsOf_eq_nil (notMem_keys_of_precedes (h.precedes hlt))
        rw [slotsOf, hnil]
        rfl
      · exact slotsOf_cons_of_ne (· ++ [slot]) hne (ih (sorted_cons.mp h).2.2)

/-! ## Dropping -/

theorem drop_sublist (index : Index) (key : IndexKey) (slot : Nat) :
    (index.drop key slot).keys.Sublist index.keys := by
  induction index with
  | nil => exact .slnil
  | cons first rest ih =>
    obtain ⟨k, slots⟩ := first
    simp only [drop]
    split
    · split
      · exact List.sublist_cons_self ..
      · exact .refl _
    · exact .cons_cons _ ih

theorem Sorted.drop {index : Index} (h : index.Sorted) (key : IndexKey) (slot : Nat) :
    (index.drop key slot).Sorted := by
  constructor
  · have hk : index.keys.Pairwise fun a b => a.precedes b :=
      List.pairwise_map.mpr h.ascending
    exact List.pairwise_map.mp (hk.sublist (drop_sublist index key slot))
  · induction index with
    | nil => simp [Index.drop]
    | cons first rest ih =>
      obtain ⟨k, slots⟩ := first
      obtain ⟨-, hne, hrest⟩ := sorted_cons.mp h
      simp only [Index.drop]
      split
      · split
        · exact hrest.inhabited
        · rename_i hleft
          exact List.forall_mem_cons.mpr ⟨by simpa using hleft, hrest.inhabited⟩
      · exact List.forall_mem_cons.mpr ⟨hne, ih hrest⟩

/-- **Dropping a slot** takes it away from its key and leaves the other keys alone. -/
theorem Sorted.slotsOf_drop {index : Index} (h : index.Sorted) (key : IndexKey) (slot : Nat)
    (other : IndexKey) :
    (index.drop key slot).slotsOf other =
      if key = other then (index.slotsOf key).filter (· != slot) else index.slotsOf other := by
  induction index with
  | nil => simp [Index.drop]
  | cons first rest ih =>
    obtain ⟨k, slots⟩ := first
    obtain ⟨hfirst, -, hsorted⟩ := sorted_cons.mp h
    simp only [Index.drop]
    split
    · rename_i hk
      subst hk
      have hrest : slotsOf rest k = [] := slotsOf_eq_nil (notMem_keys_of_precedes hfirst)
      split
      · rename_i hleft
        by_cases ho : k = other
        · subst ho
          simp only [if_true, slotsOf, hrest]
          exact (List.isEmpty_iff.mp hleft).symm
        · simp [slotsOf, ho]
      · by_cases ho : k = other <;> simp [slotsOf, ho]
    · rename_i hne
      exact slotsOf_cons_of_ne (·.filter (· != slot)) hne (ih hsorted)

end Index

end PathQuery
