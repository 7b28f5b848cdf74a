import PathQuery.Proofs.Text.Offset

/-!
# Proofs/Text/Lines — the line that a place stands in

    above │ left · right │ below

A place in a text has its line: what of it stands in front of the place, and what from the place on.  Above it
are whole lines, and below it nothing or the end of the line and all that follows (`Stands`).  The number of the
line is that of the line feeds above, and under this number it is found among the lines of the text
(`Stands.lines_getElem?`).
-/

namespace PathQuery.Text

/-! ## Parts of a text -/

variable {separator : Char} {cs ds line : List Char}

theorem exists_splitAt_cons (separator : Char) (cs : List Char) : ∃ part parts,
    splitAt separator cs = part :: parts := List.exists_cons_of_ne_nil (splitAt_ne_nil separator cs)

theorem splitAt_append (separator : Char) (cs ds : List Char) :
    splitAt separator (cs ++ separator :: ds) = splitAt separator cs ++ splitAt separator ds := by
  induction cs with
  | nil =>
    obtain ⟨part, parts, hd⟩ := exists_splitAt_cons separator ds
    simp [splitAt, hd]
  | cons c cs ih =>
    obtain ⟨part, parts, hc⟩ := exists_splitAt_cons separator cs
    rw [List.cons_append, splitAt, ih, splitAt, hc]
    by_cases h : c = separator <;> simp [h]

theorem splitAt_of_not_mem (h : separator ∉ cs) : splitAt separator cs = [cs] := by
  induction cs with
  | nil => rfl
  | cons c cs ih =>
    rw [splitAt, ih fun hm => h (.tail _ hm)]
    exact if_neg fun he : c = separator => h (he ▸ List.mem_cons_self)

theorem length_splitAt (separator : Char) (cs : List Char) :
    (splitAt separator cs).length = cs.count separator + 1 := by
  induction cs with
  | nil => rfl
  | cons c cs ih =>
    obtain ⟨part, parts, hc⟩ := exists_splitAt_cons separator cs
    rw [hc, List.length_cons] at ih
    rw [splitAt, hc, List.count_cons]
    by_cases h : c = separator <;> simp [h] <;> omega

/-! ## Lines of a text -/

theorem dropReturn_eq_self (h : cs.getLast? ≠ some '\r') : dropReturn cs = cs := if_neg h

theorem dropReturn_concat (cs : List Char) : dropReturn (cs ++ ['\r']) = cs := by
  rw [dropReturn, if_pos List.getLast?_concat, List.dropLast_concat]

/-- Lines that have ended come before the lines of the rest. -/
theorem lines_append (cs ds : List Char) :
    lines (cs ++ '\n' :: ds) = (splitAt '\n' cs).map dropReturn ++ lines ds := by
  have hne := splitAt_ne_nil '\n' ds
  simp only [lines, splitAt_append, List.dropLast_append_of_ne_nil hne, List.getLast?_append_of_ne_nil _ hne,
    List.map_append]
  split <;> simp

/-- What stands behind a line: nothing, if it is not empty; or a line feed, perhaps after a carriage return. -/
inductive Ends (line : List Char) : List Char → Prop where
  | ending (h : line ≠ []) : Ends line []
  | feed (rest : List Char) (h : line.getLast? ≠ some '\r') : Ends line ('\n' :: rest)
  | returned (rest : List Char) : Ends line ('\r' :: '\n' :: rest)

/-- The first line of a text. -/
theorem Ends.lines_head? {below : List Char} (h : Ends line below) (hl : '\n' ∉ line) :
    (lines (line ++ below)).head? = some line := by
  cases h with
  | ending hne =>
    obtain ⟨c, rest, rfl⟩ := List.exists_cons_of_ne_nil hne
    rw [List.append_nil, lines, splitAt_of_not_mem hl]
    rfl
  | feed rest hlast =>
    rw [lines_append, splitAt_of_not_mem hl, List.map_singleton, dropReturn_eq_self hlast]
    rfl
  | returned rest =>
    have hreturned : '\n' ∉ line ++ ['\r'] := by simpa using hl
    rw [List.append_cons, lines_append, splitAt_of_not_mem hreturned, List.map_singleton, dropReturn_concat]
    rfl

/-! ## Places in a text -/

/-- **The line of a place**: the text above it, what of the line stands in front of the place and what from the
place on, and the text below. -/
structure Stands (source : List Char) (offset : Nat) (above left right below : List Char) : Prop where
  whole : source = above ++ (left ++ right ++ below)
  offset_eq : offset = byteSize (above ++ left)
  above : above = [] ∨ above.getLast? = some '\n'
  line : '\n' ∉ left ++ right
  below : Ends (left ++ right) below

variable {source above left right below : List Char} {offset : Nat}

/-- A line is found under the number of line feeds above it. -/
theorem Stands.lines_getElem? (h : Stands source offset above left right below) :
    (lines source)[above.count '\n']? = some (left ++ right) := by
  have hfirst := h.below.lines_head? h.line
  rw [h.whole]
  rcases h.above with rfl | hlast
  · rwa [List.nil_append, List.count_nil, ← List.head?_eq_getElem?]
  · obtain ⟨init, rfl⟩ := List.getLast?_eq_some_iff.mp hlast
    have hlength : ((splitAt '\n' init).map dropReturn).length = (init ++ ['\n']).count '\n' := by
      rw [List.length_map, length_splitAt, List.count_append]
      rfl
    rw [List.append_assoc, List.singleton_append, lines_append, List.getElem?_append_right hlength.le, hlength,
      Nat.sub_self, ← List.head?_eq_getElem?, hfirst]

/-- A place has the same text behind it in every division of the source there. -/
theorem Stands.rest_eq {front back : List Char} (h : Stands source offset above left right below)
    (hsource : source = front ++ back) (hoffset : offset = byteSize front) : right ++ below = back := by
  have hwhole : source = (above ++ left) ++ (right ++ below) := by rw [h.whole]; simp
  have hfront : above ++ left = front := by
    rw [← before_byteSize (above ++ left) (right ++ below), ← hwhole, ← h.offset_eq, hsource, hoffset, before_byteSize]
  rw [hwhole, hfront] at hsource
  exact List.append_cancel_left hsource

theorem advance_fst (line column : Nat) (cs : List Char) :
    (advance line column cs).1 = line + cs.count '\n' := by
  induction cs generalizing line column with
  | nil => rfl
  | cons c cs ih =>
    rw [advance]
    split
    · rename_i hc
      rw [ih, hc, List.count_cons_self, Nat.add_assoc, Nat.add_comm 1]
    · rename_i hc
      rw [ih, List.count_cons_of_ne hc]

theorem lastLine_append (h : above = [] ∨ above.getLast? = some '\n') (hl : '\n' ∉ left) :
    lastLine (above ++ left) = left := by
  have hall : ∀ c ∈ left.reverse, decide (c ≠ '\n') = true := fun c hc =>
    decide_eq_true fun he => hl (he ▸ List.mem_reverse.mp hc)
  rcases h with rfl | hlast
  · exact List.rtakeWhile_eq_self_iff.mpr fun c hc => hall c (List.mem_reverse.mpr hc)
  · obtain ⟨init, rfl⟩ := List.getLast?_eq_some_iff.mp hlast
    rw [lastLine, List.rtakeWhile, List.reverse_append, List.takeWhile_append_of_pos hall, List.reverse_concat,
      List.takeWhile_cons_of_neg (by simp), List.append_nil, List.reverse_reverse]

/-- The line and the column of a place count the line feeds above it and the characters in front of it. -/
theorem Stands.lineAndColumn_eq (h : Stands source offset above left right below) :
    lineAndColumn source offset = (1 + above.count '\n', 1 + left.length) := by
  have hleft : '\n' ∉ left := fun hm => h.line (List.mem_append_left _ hm)
  have hwhole : source = (above ++ left) ++ (right ++ below) := by rw [h.whole]; simp
  rw [lineAndColumn, h.offset_eq, hwhole, before_byteSize]
  refine Prod.ext ?_ ?_
  · rw [advance_fst, List.count_append, List.count_eq_zero_of_not_mem hleft, Nat.add_zero]
  · rw [advance_snd, lastLine_append h.above hleft]

/-! ## Every place has its line -/

/-- A place is not between a carriage return and the line feed behind it. -/
def Untorn (front back : List Char) : Prop := front.getLast? = some '\r' → back.head? ≠ some '\n'

theorem Untorn.append_left {front back : List Char} (h : Untorn front back) (hne : front ≠ [])
    (more : List Char) : Untorn (more ++ front) back := fun hlast =>
  h (List.getLast?_append_of_ne_nil more hne ▸ hlast)

theorem Untorn.append_right {front back : List Char} (h : Untorn front back) (hne : back ≠ [])
    (more : List Char) : Untorn front (back ++ more) := fun hlast hfeed =>
  h hlast (List.head?_append_of_ne_nil back hne ▸ hfeed)

/-- What starts with no white space starts with no line feed. -/
theorem Framed.untorn {cs front inner back : List Char} (h : Framed cs front inner back) : Untorn front inner :=
  fun _ hfeed => absurd (h.first _ hfeed) (by decide)

/-- A place where no line ending is torn, and which is not at an end where there is no line. -/
structure Seam (front back : List Char) : Prop where
  untorn : Untorn front back
  lined : back = [] → ∃ c, front.getLast? = some c ∧ c ≠ '\n'

theorem exists_lastLine (front : List Char) : ∃ above left, front = above ++ left ∧
    (above = [] ∨ above.getLast? = some '\n') ∧ '\n' ∉ left := by
  refine ⟨front.rdropWhile (· ≠ '\n'), lastLine front, (List.rdropWhile_append_rtakeWhile ..).symm, ?_, fun hm => ?_⟩
  · by_cases hne : front.rdropWhile (· ≠ '\n') = []
    · exact .inl hne
    · have hlast := List.rdropWhile_last_not (fun c : Char => decide (c ≠ '\n')) front hne
      refine .inr ((List.getLast?_eq_getLast_of_ne_nil hne).trans (congrArg some ?_))
      simpa using hlast
  · have hkept := List.mem_rtakeWhile_imp hm
    simp at hkept

/-- What is behind a place is the rest of its line and what ends the line. -/
theorem exists_right {left back : List Char} (hl : '\n' ∉ left) (huntorn : Untorn left back)
    (hlined : back = [] → left ≠ []) :
    ∃ right below, back = right ++ below ∧ '\n' ∉ left ++ right ∧ Ends (left ++ right) below := by
  have hsplit := List.takeWhile_append_dropWhile (p := (· != '\n')) (l := back)
  have hhead := head?_dropWhile (· != '\n') back
  have hkept : '\n' ∉ back.takeWhile (· != '\n') := fun hm => by simpa using List.mem_takeWhile_imp hm
  generalize back.takeWhile (· != '\n') = kept at hsplit hkept
  generalize back.dropWhile (· != '\n') = rest at hsplit hhead
  subst hsplit
  have hline : '\n' ∉ left ++ kept := fun hm => (List.mem_append.mp hm).elim hl hkept
  cases rest with
  | nil =>
    refine ⟨kept, [], rfl, hline, .ending fun hnil => ?_⟩
    obtain ⟨hleft, hright⟩ := List.append_eq_nil_iff.mp hnil
    exact hlined (by rw [hright, List.append_nil]) hleft
  | cons c rest =>
    obtain rfl : c = '\n' := by simpa using hhead c rfl
    by_cases hreturn : kept.getLast? = some '\r'
    · obtain ⟨right, rfl⟩ := List.getLast?_eq_some_iff.mp hreturn
      refine ⟨right, '\r' :: '\n' :: rest, by simp, fun hm => hline ?_, .returned rest⟩
      rw [← List.append_assoc]
      exact List.mem_append_left _ hm
    · refine ⟨kept, '\n' :: rest, rfl, hline, .feed rest fun hlast => ?_⟩
      rw [List.getLast?_append] at hlast
      cases hk : kept.getLast? with
      | none =>
        rw [hk, Option.none_or] at hlast
        rw [List.getLast?_eq_none_iff.mp hk] at huntorn
        exact huntorn hlast rfl
      | some d =>
        rw [hk, Option.some_or] at hlast
        exact hreturn (hk.trans hlast)

/-- **Every seam of a text has its line.** -/
theorem Seam.exists_stands {front back : List Char} (h : Seam front back) : ∃ above left right below,
    Stands (front ++ back) (byteSize front) above left right below ∧ right ++ below = back := by
  obtain ⟨above, left, rfl, habove, hleft⟩ := exists_lastLine front
  obtain ⟨right, below, rfl, hline, hends⟩ := exists_right hleft
    (fun hlast => h.untorn (List.mem_getLast?_append_of_mem_getLast? hlast))
    (fun hback hnil => by
      obtain ⟨c, hc, hne⟩ := h.lined hback
      rw [hnil, List.append_nil] at hc
      rcases habove with rfl | habove
      · obtain ⟨⟩ := hc
      · exact hne (Option.some.inj (hc.symm.trans habove)))
  exact ⟨above, left, right, below, ⟨by simp, rfl, habove, hline, hends⟩, rfl⟩

end PathQuery.Text
