import Mathlib.Data.List.Infix
import Mathlib.Data.List.Nodup
import PathQuery.Filter.Predicate
import PathQuery.Proofs.Text

/-!
# Proofs/Graph/Paths — the paths of nodes, and the prefixes that they stand for

The path of a node is that of the root and the hops after it, with slashes between.  The hops of a property
path have no slashes, so a path says which hops it stands for (`pathAfter_inj`).  The prefixes of some
lists of hops are listed in the order of their first appearance, and one more list of hops adds those of
its prefixes that are new (`prefixes_concat`).
-/

namespace PathQuery

/-! ## Paths -/

/-- Names without slashes. -/
def SlashFree (hops : List String) : Prop := ∀ hop ∈ hops, '/' ∉ hop.toList

theorem slashFree_cons {hop : String} {rest : List String} :
    SlashFree (hop :: rest) ↔ '/' ∉ hop.toList ∧ SlashFree rest := List.forall_mem_cons

/-- The hops of a property path have no slashes. -/
theorem slashFree_ofText (path : String) : SlashFree (Filter.PropertyPath.ofText path).hops := by
  intro hop hm
  obtain ⟨part, hpart, rfl⟩ := List.mem_map.mp (List.mem_of_mem_dropLast hm)
  rw [String.toList_ofList]
  exact Text.notMem_of_mem_splitAt hpart

/-- The path at the end of some hops. -/
def pathAfter (path : String) (hops : List String) : String :=
  hops.foldl (fun path hop => s!"{path}/{hop}") path

theorem pathAfter_eq_intercalate (path : String) (hops : List String) :
    pathAfter path hops = "/".intercalate (path :: hops) := by
  rw [pathAfter, String.intercalate]
  induction hops generalizing path with
  | nil => rfl
  | cons hop rest ih => exact ih _

/-- The characters of some hops, each after a slash. -/
def slashed (hops : List String) : List Char := hops.flatMap fun hop => '/' :: hop.toList

theorem toList_pathAfter (path : String) (hops : List String) :
    (pathAfter path hops).toList = path.toList ++ slashed hops := by
  induction hops generalizing path with
  | nil => simp [pathAfter, slashed]
  | cons hop rest ih =>
    have hhop : s!"{path}/{hop}".toList = path.toList ++ '/' :: hop.toList := by
      change (path ++ "/" ++ hop).toList = _
      rw [String.toList_append, String.toList_append]
      simp
    have hcons : pathAfter path (hop :: rest) = pathAfter s!"{path}/{hop}" rest := rfl
    rw [hcons, ih, hhop, slashed, slashed, List.flatMap_cons, List.append_assoc]

theorem slashed_inj : ∀ {hops hops' : List String}, SlashFree hops → SlashFree hops' →
    slashed hops = slashed hops' → hops = hops'
  | [], [], _, _, _ => rfl
  | [], _ :: _, _, _, h => nomatch h
  | _ :: _, [], _, _, h => nomatch h
  | hop :: rest, hop' :: rest', hs, hs', h => by
    have hend : ∀ hops : List String, ∃ cs, slashed hops ++ ['/'] = '/' :: cs := fun hops => by
      match hops with
      | [] => exact ⟨[], rfl⟩
      | hop :: rest => exact ⟨_, rfl⟩
    have h : hop.toList ++ slashed rest = hop'.toList ++ slashed rest' := by
      simpa [slashed] using h
    obtain ⟨cs, hcs⟩ := hend rest
    obtain ⟨cs', hcs'⟩ := hend rest'
    have hsep : hop.toList ++ '/' :: cs = hop'.toList ++ '/' :: cs' := by
      rw [← hcs, ← hcs', ← List.append_assoc, ← List.append_assoc, h]
    obtain ⟨hhop, hrest⟩ := append_separator_inj (slashFree_cons.mp hs).1 (slashFree_cons.mp hs').1 hsep
    rw [hhop] at h
    rw [String.toList_inj.mp hhop, slashed_inj (slashFree_cons.mp hs).2 (slashFree_cons.mp hs').2
      (List.append_cancel_left h)]

/-- **A path says which hops it stands for.** -/
theorem pathAfter_inj {path : String} {hops hops' : List String} (hs : SlashFree hops)
    (hs' : SlashFree hops') (h : pathAfter path hops = pathAfter path hops') : hops = hops' := by
  have := congrArg String.toList h
  rw [toList_pathAfter, toList_pathAfter] at this
  exact slashed_inj hs hs' (List.append_cancel_left this)

/-! ## Prefixes -/

/-- The prefixes of some lists of hops, each once, in the order of their first appearance. -/
def prefixes (hopss : List (List String)) : List (List String) :=
  ([] :: hopss.flatMap List.inits).eraseDups

theorem mem_prefixes {hopss : List (List String)} {hops : List String} :
    hops ∈ prefixes hopss ↔ hops = [] ∨ ∃ long ∈ hopss, hops <+: long := by
  rw [prefixes, List.mem_eraseDups, List.mem_cons, List.mem_flatMap]
  simp only [List.mem_inits]

theorem nodup_eraseDups {α : Type} [BEq α] [LawfulBEq α] : ∀ l : List α, l.eraseDups.Nodup
  | [] => List.nodup_nil
  | a :: rest => by
    rw [List.eraseDups_cons, List.nodup_cons, List.mem_eraseDups]
    refine ⟨fun hm => ?_, nodup_eraseDups _⟩
    have hne := (List.mem_filter.mp hm).2
    simp at hne
termination_by l => l.length
decreasing_by exact Nat.lt_succ_of_le (List.length_filter_le _ _)

theorem nodup_prefixes (hopss : List (List String)) : (prefixes hopss).Nodup := nodup_eraseDups _

theorem eraseDups_of_nodup {α : Type} [BEq α] [LawfulBEq α] {l : List α} (h : l.Nodup) :
    l.eraseDups = l := by
  induction l with
  | nil => rfl
  | cons a rest ih =>
    obtain ⟨ha, hrest⟩ := List.nodup_cons.mp h
    have hkeep : rest.filter (fun b => !b == a) = rest := List.filter_eq_self.mpr fun b hb => by
      simpa using fun he : b = a => ha (he ▸ hb)
    rw [List.eraseDups_cons, hkeep, ih hrest]

/-- One more member is last, unless it is there. -/
theorem eraseDups_concat {α : Type} [BEq α] [LawfulBEq α] (l : List α) (a : α) :
    (l ++ [a]).eraseDups = l.eraseDups ++ if a ∈ l then [] else [a] := by
  rw [List.eraseDups_append, List.removeAll, List.filter_singleton]
  by_cases h : a ∈ l
  · rw [List.elem_iff.mpr h, if_pos h]
    rfl
  · rw [if_neg h, Bool.eq_false_iff.mpr fun he => h (List.elem_iff.mp he)]
    rfl

theorem nodup_inits (hops : List String) : hops.inits.Nodup := by
  induction hops with
  | nil => exact List.nodup_singleton _
  | cons hop rest ih =>
    rw [List.inits_cons, List.nodup_cons]
    refine ⟨fun hm => ?_, ih.map fun a b h => (List.cons.inj h).2⟩
    obtain ⟨a, -, ha⟩ := List.mem_map.mp hm
    obtain ⟨⟩ := ha

/-- **One more list of hops** adds its prefixes that are new. -/
theorem prefixes_concat (hopss : List (List String)) (hops : List String) :
    prefixes (hopss ++ [hops]) = prefixes hopss ++ hops.inits.removeAll (prefixes hopss) := by
  have hnew : hops.inits.removeAll ([] :: hopss.flatMap List.inits) =
      hops.inits.removeAll (prefixes hopss) := by
    refine List.filter_congr fun a _ => ?_
    rw [prefixes, List.elem_eq_contains, List.elem_eq_contains, Bool.not_inj_iff, Bool.eq_iff_iff,
      List.contains_iff_mem, List.contains_iff_mem, List.mem_eraseDups]
  have hnodup : (hops.inits.removeAll (prefixes hopss)).Nodup := (nodup_inits hops).filter _
  rw [prefixes, List.flatMap_append, ← List.cons_append, List.eraseDups_append, List.flatMap_singleton,
    hnew, eraseDups_of_nodup hnodup, ← prefixes]

/-- The new prefixes behind a first hop, if it is known what is not new behind it. -/
theorem removeAll_inits_cons {hop : String} {hopss known : List (List String)}
    (h : ∀ rest, hop :: rest ∈ prefixes hopss ↔ rest ∈ known) (rest : List String) :
    (hop :: rest).inits.removeAll (prefixes hopss) = (rest.inits.removeAll known).map (hop :: ·) := by
  have hnil : (prefixes hopss).elem [] = true := List.elem_iff.mpr (mem_prefixes.mpr (.inl rfl))
  rw [List.inits_cons, List.removeAll, List.filter_cons, hnil, Bool.not_true, if_neg Bool.false_ne_true,
    List.filter_map, List.removeAll]
  refine congrArg _ (List.filter_congr fun a _ => ?_)
  rw [Function.comp_apply, Bool.not_inj_iff, Bool.eq_iff_iff, List.elem_iff, List.elem_iff]
  exact h a

/-- All prefixes are new where none is known, but for the empty one. -/
theorem inits_eq_cons_removeAll : ∀ hops : List String,
    hops.inits = [] :: hops.inits.removeAll (prefixes [])
  | [] => rfl
  | hop :: rest => by
    have hkeep : (rest.inits.map (hop :: ·)).removeAll (prefixes []) = rest.inits.map (hop :: ·) :=
      List.filter_eq_self.mpr fun a ha => by
        obtain ⟨b, -, rfl⟩ := List.mem_map.mp ha
        rfl
    rw [List.inits_cons]
    exact congrArg _ hkeep.symm

end PathQuery
