import Mathlib.Data.List.Pairwise
import Mathlib.Tactic.Common
import PathQuery.Proofs.Except
import PathQuery.Store.Match

/-!
# Proofs/Store/Restriction — inserted conditions commute

    none ──insert p₁──▸ · ──insert p₂──▸ … ──insert pₙ──▸ restriction

A condition is refused by what is there on its field, whichever of the two came first.  So a list of
conditions is inserted exactly if no two of it conflict (`insertAll_eq_ok_iff`), which is the same for every
order of the list, and says of each field that its operators differ and that an equality stands alone
(`peaceful_iff`).
-/

namespace PathQuery

namespace Condition

/-- Two conditions of one field go together exactly if neither is an equality and their operators
differ. -/
theorem conflicts_eq_false_iff {a b : Condition} :
    a.conflicts b = false ↔
      a.isEquality = false ∧ b.isEquality = false ∧ a.operatorName ≠ b.operatorName := by
  simp [conflicts, and_assoc]

end Condition

namespace Restriction

variable {r s : Restriction} {ps qs : List (String × Condition)} {field : String} {c : Condition}

/-- Inserts conditions one by one, up to the first that is refused. -/
def insertAll (r : Restriction) (ps : List (String × Condition)) : Except Failure Restriction :=
  ps.foldlM (fun r p => r.insert p.1 p.2) r

/-- No two conditions of a field conflict. -/
def Peaceful (ps : List (String × Condition)) : Prop :=
  ps.Pairwise fun a b => a.1 = b.1 → a.2.conflicts b.2 = false

/-- On each field no operator comes twice, and an equality stands alone. -/
def Compatible (ps : List (String × Condition)) : Prop :=
  ∀ field, let conditions := (Restriction.mk ps).on field
    (conditions.map Condition.operatorName).Nodup ∧
      ∀ c ∈ conditions, c.isEquality = true → conditions = [c]

theorem mem_on : c ∈ r.on field ↔ (field, c) ∈ r.conditions := by
  rw [on, List.mem_map]
  constructor
  · rintro ⟨⟨other, d⟩, hd, rfl⟩
    obtain ⟨hd, hf⟩ := List.mem_filter.mp hd
    exact eq_of_beq hf ▸ hd
  · exact fun hc => ⟨(field, c), List.mem_filter.mpr ⟨hc, beq_self_eq_true field⟩, rfl⟩

/-! ## What is inserted -/

/-- A condition behind others conflicts with none of its field exactly if it is not refused there. -/
theorem peaceful_concat {p : String × Condition} :
    Peaceful (ps ++ [p]) ↔
      Peaceful ps ∧ ∀ d ∈ (Restriction.mk ps).on p.1, d.conflicts p.2 = false := by
  obtain ⟨field, c⟩ := p
  simp only [Peaceful, List.pairwise_append, List.pairwise_singleton, true_and, List.mem_singleton,
    forall_eq, mem_on]
  refine and_congr_right fun _ => ⟨fun h d hd => h (field, d) hd rfl, ?_⟩
  rintro h ⟨other, d⟩ hd rfl
  exact h d hd

/-- **A list of conditions is inserted** behind those that are there exactly if no two conflict. -/
theorem insertAll_eq_ok_iff (hr : Peaceful r.conditions) :
    r.insertAll ps = .ok s ↔ Peaceful (r.conditions ++ ps) ∧ s = ⟨r.conditions ++ ps⟩ := by
  induction ps generalizing r with
  | nil =>
    rw [List.append_nil]
    exact ⟨fun h => ⟨hr, (Except.ok.inj h).symm⟩, fun ⟨_, h⟩ => congrArg Except.ok h.symm⟩
  | cons p ps ih =>
    have hsplit : r.conditions ++ p :: ps = (r.push p.1 p.2).conditions ++ ps := by simp [push]
    rw [insertAll, foldlM_cons_eq_ok, hsplit]
    constructor
    · rintro ⟨d, hd, h⟩
      obtain ⟨hfree, rfl⟩ := insert_eq_ok_iff.mp hd
      exact (ih (peaceful_concat.mpr ⟨hr, hfree⟩)).mp h
    · rintro ⟨hall, rfl⟩
      have hp : Peaceful (r.push p.1 p.2).conditions :=
        hall.sublist (List.sublist_append_left ..)
      exact ⟨_, insert_eq_ok_iff.mpr ⟨(peaceful_concat.mp hp).2, rfl⟩, (ih hp).mpr ⟨hall, rfl⟩⟩

/-- From the empty restriction on. -/
theorem insertAll_none_eq_ok_iff : none.insertAll ps = .ok s ↔ Peaceful ps ∧ s = ⟨ps⟩ :=
  insertAll_eq_ok_iff (r := none) List.Pairwise.nil

/-! ## Any order -/

/-- Conflict looks at two conditions in either order. -/
theorem Peaceful.of_perm (h : Peaceful ps) (hp : ps.Perm qs) : Peaceful qs :=
  hp.pairwise h fun hab heq => Condition.conflicts_comm _ _ ▸ hab heq.symm

/-- Conditions go together exactly if those of each field do. -/
theorem peaceful_iff_on :
    Peaceful ps ↔ ∀ field, ((Restriction.mk ps).on field).Pairwise fun a b => a.conflicts b = false := by
  simp only [on, List.pairwise_map, List.pairwise_filter, beq_iff_eq, Peaceful]
  constructor
  · exact fun h field => h.imp fun hab ha hb => hab (ha.trans hb.symm)
  · refine fun h => List.pairwise_iff_forall_sublist.mpr fun {a b} hab heq => ?_
    exact List.pairwise_iff_forall_sublist.mp (h a.1) hab rfl heq.symm

/-- Two conditions in one list are not alone. -/
theorem not_singleton_of_sublist {a b : Condition} {cs : List Condition} (h : [a, b].Sublist cs) :
    ∀ c, cs ≠ [c] := by
  rintro c rfl
  exact absurd h.length_le (by simp)

/-- Conditions of one field go together exactly if their operators differ and an equality is alone. -/
theorem pairwise_not_conflicts_iff {cs : List Condition} :
    (cs.Pairwise fun a b => a.conflicts b = false) ↔
      (cs.map Condition.operatorName).Nodup ∧ ∀ c ∈ cs, c.isEquality = true → cs = [c] := by
  rw [List.Nodup, List.pairwise_map, List.pairwise_iff_forall_sublist, List.pairwise_iff_forall_sublist]
  simp only [Condition.conflicts_eq_false_iff]
  constructor
  · refine fun h => ⟨fun hab => (h hab).2.2, fun c hc heq => ?_⟩
    obtain ⟨before, after, rfl⟩ := List.append_of_mem hc
    have hbefore : before = [] := by
      refine List.eq_nil_iff_forall_not_mem.mpr fun d hd => ?_
      have hdc : [d, c].Sublist (before ++ c :: after) :=
        (List.singleton_sublist.mpr hd).append (List.singleton_sublist.mpr (.head after))
      exact Bool.eq_false_iff.mp (h hdc).2.1 heq
    have hafter : after = [] := by
      refine List.eq_nil_iff_forall_not_mem.mpr fun d hd => ?_
      have hcd : [c, d].Sublist (before ++ c :: after) :=
        ((List.singleton_sublist.mpr hd).cons_cons c).trans (List.sublist_append_right ..)
      exact Bool.eq_false_iff.mp (h hcd).1 heq
    rw [hbefore, hafter, List.nil_append]
  · rintro ⟨hops, halone⟩ a b hab
    have hmem := fun c (hc : c ∈ [a, b]) => Bool.eq_false_iff.mpr fun heq =>
      not_singleton_of_sublist hab c (halone c (hab.subset hc) heq)
    exact ⟨hmem a (.head _), hmem b (.tail _ (.head _)), hops hab⟩

/-- **Conditions go together** exactly if on each field their operators differ and an equality is alone. -/
theorem peaceful_iff : Peaceful ps ↔ Compatible ps := by
  simp only [peaceful_iff_on, pairwise_not_conflicts_iff, Compatible]

/-! ## What is admitted -/

/-- A document is admitted exactly if each condition holds of its field. -/
theorem admits_iff {doc : Document} :
    r.admits doc = true ↔ ∀ p ∈ r.conditions, p.2.holdsAt (doc.lookup p.1) = true :=
  List.all_eq_true

end Restriction

end PathQuery
