import Mathlib.Tactic.Common
import PathQuery.Text.Offset

/-!
# Proofs/Text — texts joined by separators, and taken apart at them

What stands before the first separator of a text and what stands after it are told by the text.
-/

namespace PathQuery

/-- Parts without separators can be told from the texts that they begin. -/
theorem append_separator_inj {separator : Char} {as bs rs ss : List Char} (ha : separator ∉ as)
    (hb : separator ∉ bs) (h : as ++ separator :: rs = bs ++ separator :: ss) : as = bs ∧ rs = ss := by
  induction as generalizing bs with
  | nil =>
    match bs with
    | [] => exact ⟨rfl, (List.cons.inj h).2⟩
    | b :: bs => exact absurd ((List.cons.inj h).1 ▸ List.mem_cons_self) hb
  | cons a as ih =>
    match bs with
    | [] => exact absurd ((List.cons.inj h).1 ▸ List.mem_cons_self) ha
    | b :: bs =>
      obtain ⟨hab, h⟩ := List.cons.inj h
      obtain ⟨hasbs, hrs⟩ := ih (fun hm => ha (.tail _ hm)) (fun hm => hb (.tail _ hm)) h
      exact ⟨by rw [hab, hasbs], hrs⟩

/-- The parts of a text have no separator. -/
theorem Text.notMem_of_mem_splitAt {separator : Char} {cs part : List Char}
    (h : part ∈ Text.splitAt separator cs) : separator ∉ part := by
  induction cs generalizing part with
  | nil =>
    rw [List.mem_singleton.mp h]
    exact List.not_mem_nil
  | cons c rest ih =>
    rw [splitAt] at h
    split at h
    · exact absurd ‹_› (splitAt_ne_nil separator rest)
    · rename_i first parts hrest
      rw [hrest] at ih
      split at h
      · rcases List.mem_cons.mp h with rfl | h
        · exact List.not_mem_nil
        · exact ih h
      · rename_i hc
        rcases List.mem_cons.mp h with rfl | h
        · exact fun hm => (List.mem_cons.mp hm).elim (fun he => hc he.symm) (ih (.head _))
        · exact ih (.tail _ h)

end PathQuery
