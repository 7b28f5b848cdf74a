import Mathlib.Data.List.Infix
import Mathlib.Data.List.Induction
import Mathlib.Tactic.Common
import PathQuery.Text.LowerCase

/-!
# Proofs/Text/LowerCase — the lower case of a part of a text

    ΟΔΟΣ   ──▸   οδος           ΟΔΟΣ ΜΟΥ   ──▸   οδος μου
       Σ   ──▸      σ           ΟΔΟΣΗΜΑ    ──▸   οδοσημα

Within a text a part has the lower case that it has alone, but for its capital sigmas: one that ends a word in
the text, and not in the part, is written otherwise, and the other way round.  So the lower case of a part stands
where the part stands exactly if its sigmas end words in the text as they do in the part
(`lowerBetween_eq_iff`).
-/

namespace PathQuery.Text

variable {xs ys cs before text after front back : List Char} {b b' : Bool} {c : Char}

/-! ## Cased neighbours -/

/-- Whether the last character of a text that casing does not ignore is cased, where it is told what it is if
casing ignores them all. -/
def casedAfter (cased : Bool) (cs : List Char) : Bool :=
  cs.foldl (fun cased c => if isCaseIgnorable c then cased else isCased c) cased

theorem casedAfter_append (b : Bool) (xs ys : List Char) :
    casedAfter b (xs ++ ys) = casedAfter (casedAfter b xs) ys := List.foldl_append ..

/-- Backwards it is the first such character. -/
theorem casedAfter_false (cs : List Char) : casedAfter false cs = casedAhead cs.reverse := by
  induction cs using List.reverseRecOn with
  | nil => rfl
  | append_singleton cs c ih =>
    rw [casedAfter_append, List.reverse_append, List.reverse_singleton, List.singleton_append, casedAhead, ih]
    rfl

theorem casedAhead_append (xs ys : List Char) :
    casedAhead (xs ++ ys) = if xs.all isCaseIgnorable then casedAhead ys else casedAhead xs := by
  induction xs with
  | nil => simp
  | cons c xs ih =>
    rw [List.cons_append, casedAhead, casedAhead, ih]
    by_cases hc : isCaseIgnorable c = true <;> simp [hc]

/-- A cased character that comes later is seen only past characters that casing ignores. -/
theorem casedAhead_of_append (h : casedAhead xs = false) (hy : casedAhead (xs ++ ys) = true) (zs : List Char) :
    casedAhead (xs ++ zs) = casedAhead zs := by
  rw [casedAhead_append] at hy ⊢
  split at hy
  · rename_i hall
    rw [if_pos hall]
  · rw [h] at hy
    cases hy

theorem casedAhead_append_of_true (h : casedAhead xs = true) (ys : List Char) : casedAhead (xs ++ ys) = true := by
  induction xs with
  | nil => cases h
  | cons c xs ih =>
    rw [casedAhead] at h
    rw [List.cons_append, casedAhead]
    split at h
    · rename_i hc
      rw [if_pos hc, ih h]
    · rename_i hc
      rw [if_neg hc, h]

/-! ## A part of a text -/

/-- The lower case of a text before another, behind a character that is cased or not. -/
def lowerBetween (cased : Bool) (after : List Char) : List Char → List Char
  | [] => []
  | c :: rest =>
    (if c = 'Σ' then [if cased && !casedAhead (rest ++ after) then 'ς' else 'σ'] else lowerChar c) ++
      lowerBetween (if isCaseIgnorable c then cased else isCased c) after rest

theorem lowerAfter_append (b : Bool) (cs after : List Char) :
    lowerAfter b (cs ++ after) = lowerBetween b after cs ++ lowerAfter (casedAfter b cs) after := by
  induction cs generalizing b with
  | nil => rfl
  | cons c cs ih =>
    rw [List.cons_append, lowerAfter, lowerBetween, ih, List.append_assoc]
    rfl

theorem lowerAfter_eq (b : Bool) (cs : List Char) : lowerAfter b cs = lowerBetween b [] cs := by
  have := lowerAfter_append b cs []
  rwa [List.append_nil, lowerAfter, List.append_nil] at this

/-- No neighbour changes the length. -/
theorem length_lowerBetween (b b' : Bool) (after after' cs : List Char) :
    (lowerBetween b after cs).length = (lowerBetween b' after' cs).length := by
  induction cs generalizing b b' with
  | nil => rfl
  | cons c cs ih =>
    rw [lowerBetween, lowerBetween, List.length_append, List.length_append,
      ih _ (if isCaseIgnorable c then b' else isCased c)]
    by_cases hc : c = 'Σ' <;> simp [hc]

/-- The two forms of the small sigma differ. -/
theorem final_iff {p q : Bool} : (if p then 'ς' else 'σ') = (if q then 'ς' else 'σ') ↔ p = q := by
  cases p <;> cases q <;> decide

/-- What holds of all sigmas of a text, the first character told apart. -/
theorem forall_sigma_cons {P : List Char → List Char → Prop} :
    (∀ front back, c :: cs = front ++ 'Σ' :: back → P front back) ↔
      (c = 'Σ' → P [] cs) ∧ ∀ front back, cs = front ++ 'Σ' :: back → P (c :: front) back := by
  constructor
  · intro h
    exact ⟨fun hc => h [] cs (by rw [hc]; rfl), fun front back he => h (c :: front) back (by rw [he]; rfl)⟩
  · rintro ⟨hfirst, hrest⟩ front back he
    cases front with
    | nil =>
      obtain ⟨hc, rfl⟩ := List.cons.inj he
      exact hfirst hc
    | cons d front =>
      obtain ⟨rfl, hcs⟩ := List.cons.inj he
      exact hrest front back hcs

/-- Two surroundings give a text one lower case exactly if its sigmas end words in both or in none. -/
theorem lowerBetween_eq_lowerBetween_iff {after' : List Char} :
    lowerBetween b after cs = lowerBetween b' after' cs ↔ ∀ front back, cs = front ++ 'Σ' :: back →
      (casedAfter b front && !casedAhead (back ++ after)) = (casedAfter b' front && !casedAhead (back ++ after')) := by
  induction cs generalizing b b' with
  | nil => simp [lowerBetween]
  | cons c cs ih =>
    rw [forall_sigma_cons, lowerBetween, lowerBetween]
    have htail := @ih (if isCaseIgnorable c then b else isCased c) (if isCaseIgnorable c then b' else isCased c)
    constructor
    · intro h
      obtain ⟨hfirst, hrest⟩ := List.append_inj' h (length_lowerBetween ..)
      refine ⟨fun hc => ?_, htail.mp hrest⟩
      rw [if_pos hc, if_pos hc, List.singleton_inj] at hfirst
      exact final_iff.mp hfirst
    · rintro ⟨hfirst, hrest⟩
      rw [htail.mpr hrest]
      by_cases hc : c = 'Σ'
      · have hfinal := hfirst hc
        simp only [casedAfter, List.foldl_nil] at hfinal
        rw [if_pos hc, if_pos hc, hfinal]
      · rw [if_neg hc, if_neg hc]

/-! ## Capital sigmas -/

/-- Whether a word ends between two texts: the nearest character before that casing does not ignore is cased, and
the nearest after is not. -/
def endsWord (before after : List Char) : Bool := casedAhead before.reverse && !casedAhead after

/-- The capital sigmas of a text end words between two others exactly where they do in the text alone. -/
def SigmasAgree (before text after : List Char) : Prop :=
  ∀ front back, text = front ++ 'Σ' :: back → endsWord (before ++ front) (back ++ after) = endsWord front back

theorem lowerBetween_eq_iff :
    lowerBetween (casedAhead before.reverse) after text = lowerCase text ↔ SigmasAgree before text after := by
  rw [lowerCase, lowerAfter_eq, lowerBetween_eq_lowerBetween_iff]
  simp only [← casedAfter_false, ← casedAfter_append, SigmasAgree, endsWord, List.append_nil]

/-- A letter before and a letter after a text show whether its surroundings decide on a sigma.  One that can end a
word and alone does not ends one behind the letter, and one that alone ends a word and need not ends none before
the letter. -/
theorem endsWord_of_letters {x y : Char} (hx : casedAhead [x] = true) (hy : casedAhead [y] = true)
    (hbehind : endsWord ([x] ++ front) back = endsWord front back)
    (hbefore : endsWord front (back ++ [y]) = endsWord front back) (before after : List Char) :
    endsWord (before ++ front) (back ++ after) = endsWord front back := by
  simp only [endsWord, List.reverse_append, List.reverse_singleton] at hbehind hbefore ⊢
  cases hfront : casedAhead front.reverse with
  | true =>
    rw [casedAhead_append_of_true hfront]
    cases hback : casedAhead back with
    | true => rw [casedAhead_append_of_true hback]
    | false =>
      -- A cased character is seen behind the sigma only past characters that casing ignores, as the letter is.
      cases hahead : casedAhead (back ++ after) with
      | false => rfl
      | true =>
        rw [hfront, hback, casedAhead_of_append hback hahead, hy] at hbefore
        cases hbefore
  | false =>
    cases hback : casedAhead back with
    | true => rw [casedAhead_append_of_true hback, Bool.not_true, Bool.and_false, Bool.and_false]
    | false =>
      cases hbehead : casedAhead (front.reverse ++ before.reverse) with
      | false => rfl
      | true =>
        rw [hfront, hback, casedAhead_of_append hfront hbehead, hx] at hbehind
        cases hbehind

theorem SigmasAgree.of_letters {x y : Char} (hx : casedAhead [x] = true) (hy : casedAhead [y] = true)
    (hbehind : SigmasAgree [x] text []) (hbefore : SigmasAgree [] text [y]) (before after : List Char) :
    SigmasAgree before text after := by
  intro front back htext
  have hfront := hbehind front back htext
  rw [List.append_nil] at hfront
  exact endsWord_of_letters hx hy hfront (hbefore front back htext) before after

/-- A text without capital sigmas agrees with all surroundings. -/
theorem SigmasAgree.of_not_mem (h : 'Σ' ∉ text) : SigmasAgree before text after := by
  rintro front back rfl
  exact absurd (List.mem_append_right front List.mem_cons_self) h

/-! ## A part where it stands -/

theorem lowerCase_append (before text : List Char) :
    lowerCase (before ++ text) =
      lowerBetween false text before ++ lowerAfter (casedAhead before.reverse) text := by
  rw [lowerCase, lowerAfter_append, casedAfter_false]

theorem length_lowerCase (b : Bool) (after text : List Char) :
    (lowerCase text).length = (lowerBetween b after text).length := by
  rw [lowerCase, lowerAfter_eq, length_lowerBetween]

theorem occursIn_lowerCase (h : SigmasAgree before text after) :
    occursIn (lowerCase text) (lowerCase (before ++ (text ++ after))) = true := by
  rw [occursIn_iff, lowerCase_append, lowerAfter_append, lowerBetween_eq_iff.mpr h]
  exact ⟨_, _, rfl⟩

theorem isPrefixOf_lowerCase_iff :
    (lowerCase text).isPrefixOf (lowerCase (text ++ after)) = true ↔ SigmasAgree [] text after := by
  rw [List.isPrefixOf_iff_prefix, ← lowerBetween_eq_iff, lowerCase_append]
  change lowerCase text <+: lowerBetween false after text ++ _ ↔ lowerBetween false after text = lowerCase text
  have hlength := length_lowerCase false after text
  rw [List.isPrefix_append_of_length hlength.le]
  constructor
  · intro h
    exact (h.eq_of_length hlength).symm
  · intro h
    rw [h]

theorem isSuffixOf_lowerCase_iff :
    (lowerCase text).isSuffixOf (lowerCase (before ++ text)) = true ↔ SigmasAgree before text [] := by
  rw [List.isSuffixOf_iff_suffix, ← lowerBetween_eq_iff, lowerCase_append, lowerAfter_eq]
  have hlength := length_lowerCase (casedAhead before.reverse) [] text
  constructor
  · intro h
    exact ((List.suffix_of_suffix_length_le h (List.suffix_append ..) hlength.le).eq_of_length hlength).symm
  · intro h
    rw [h]
    exact List.suffix_append ..

/-! ## A part that is found wherever it stands -/

/-- A list inside one that is longer by its first element is the rest of it, or begins like it. -/
theorem eq_or_head?_of_infix_cons (h : xs <:+: c :: ys) (hlength : xs.length = ys.length) :
    xs = ys ∨ xs.head? = some c := by
  obtain hstart | hinside := List.infix_cons_iff.mp h
  · cases xs with
    | nil => exact .inl (List.length_eq_zero_iff.mp hlength.symm).symm
    | cons x xs => exact .inr (congrArg some (List.cons_prefix_cons.mp hstart).1)
  · exact .inl (hinside.eq_of_length hlength)

/-- A list inside one that is longer by its last element is the rest of it, or ends like it. -/
theorem eq_or_getLast?_of_infix_concat (h : xs <:+: ys ++ [c]) (hlength : xs.length = ys.length) :
    xs = ys ∨ xs.getLast? = some c := by
  have hreverse : xs.reverse <:+: c :: ys.reverse := by
    rw [← List.reverse_concat, List.reverse_infix]
    exact h
  obtain he | hhead := eq_or_head?_of_infix_cons hreverse (by rw [List.length_reverse, List.length_reverse, hlength])
  · exact .inl (List.reverse_inj.mp he)
  · exact .inr (by rwa [List.head?_reverse] at hhead)

/-- There is a cased character, its own lower case, apart from any other. -/
theorem exists_letter_ne (o : Option Char) :
    ∃ x, casedAhead [x] = true ∧ (∀ b after, lowerBetween b after [x] = [x]) ∧ o ≠ some x := by
  by_cases h : o = some 'a'
  · exact ⟨'b', by decide +kernel, fun _ _ => rfl, by rw [h]; decide⟩
  · exact ⟨'a', by decide +kernel, fun _ _ => rfl, h⟩

theorem exists_letter_before (h : ∀ x, occursIn (lowerCase text) (lowerCase ([x] ++ text)) = true) :
    ∃ x, casedAhead [x] = true ∧ SigmasAgree [x] text [] := by
  obtain ⟨x, hcased, hlower, hne⟩ := exists_letter_ne (lowerCase text).head?
  obtain ⟨front, back, he⟩ := (occursIn_iff ..).mp (h x)
  rw [lowerCase_append, hlower, lowerAfter_eq] at he
  have hinside : lowerCase text <:+: x :: lowerBetween (casedAhead [x].reverse) [] text :=
    ⟨front, back, by rw [List.append_assoc, ← he, List.singleton_append]⟩
  exact ⟨x, hcased, lowerBetween_eq_iff.mp
    ((eq_or_head?_of_infix_cons hinside (length_lowerCase ..)).resolve_right hne).symm⟩

theorem exists_letter_after (h : ∀ x, occursIn (lowerCase text) (lowerCase (text ++ [x])) = true) :
    ∃ x, casedAhead [x] = true ∧ SigmasAgree [] text [x] := by
  obtain ⟨x, hcased, hlower, hne⟩ := exists_letter_ne (lowerCase text).getLast?
  obtain ⟨front, back, he⟩ := (occursIn_iff ..).mp (h x)
  rw [lowerCase_append, lowerAfter_eq, hlower] at he
  have hinside : lowerCase text <:+: lowerBetween false [x] text ++ [x] :=
    ⟨front, back, by rw [List.append_assoc, ← he]⟩
  exact ⟨x, hcased, lowerBetween_eq_iff.mp
    ((eq_or_getLast?_of_infix_concat hinside (length_lowerCase ..)).resolve_right hne).symm⟩

/-- A text is found in every text it is a part of exactly if its sigmas agree with all surroundings. -/
theorem occursIn_lowerCase_iff :
    (∀ before after, occursIn (lowerCase text) (lowerCase (before ++ (text ++ after))) = true) ↔
      ∀ before after, SigmasAgree before text after := by
  refine ⟨fun h => ?_, fun h before after => occursIn_lowerCase (h before after)⟩
  obtain ⟨x, hx, hbehind⟩ := exists_letter_before fun x => by
    have := h [x] []
    rwa [List.append_nil] at this
  obtain ⟨y, hy, hbefore⟩ := exists_letter_after fun y => h [] [y]
  exact SigmasAgree.of_letters hx hy hbehind hbefore

end PathQuery.Text
