import Mathlib.Data.List.DropRight
import Mathlib.Tactic.Common
import PathQuery.Text.Blank
import PathQuery.Text.Offset

/-!
# Proofs/Text/Offset — where a part of a text stands

A text is a part in front and what comes after it.  The part after it starts at the byte size of the part in
front, and its column is counted from the last line feed in the part in front.
-/

namespace PathQuery.Text

/-! ## Columns -/

/-- What stands after the last line feed of a text. -/
def lastLine (cs : List Char) : List Char := cs.rtakeWhile (· ≠ '\n')

theorem before_byteSize (front after : List Char) : before (byteSize front) (front ++ after) = front := by
  induction front with
  | nil => cases after <;> simp [before]
  | cons c front ih =>
    have hpos : 0 < c.utf8Size := c.utf8Size_pos
    rw [List.cons_append, before, byteSize_cons, if_neg (by omega), Nat.add_sub_cancel_left, ih]

theorem before_of_le {offset : Nat} {cs : List Char} (h : byteSize cs ≤ offset) : before offset cs = cs := by
  induction cs generalizing offset with
  | nil => rfl
  | cons c cs ih =>
    have hpos : 0 < c.utf8Size := c.utf8Size_pos
    rw [byteSize_cons] at h
    rw [before, if_neg (by omega), ih (by omega)]

/-- A character has at least one byte. -/
theorem length_le_byteSize (cs : List Char) : cs.length ≤ byteSize cs := by
  induction cs with
  | nil => exact Nat.le_refl 0
  | cons c cs ih =>
    have hpos : 0 < c.utf8Size := c.utf8Size_pos
    rw [List.length_cons, byteSize_cons]
    omega

theorem byteSize_eq_length_iff {cs : List Char} : byteSize cs = cs.length ↔ ∀ c ∈ cs, c.utf8Size = 1 := by
  induction cs with
  | nil => simp
  | cons c cs ih =>
    have hpos : 0 < c.utf8Size := c.utf8Size_pos
    have hle := length_le_byteSize cs
    rw [List.forall_mem_cons, ← ih, List.length_cons, byteSize_cons]
    omega

theorem advance_concat (line column : Nat) (cs : List Char) (c : Char) :
    advance line column (cs ++ [c]) =
      if c = '\n' then ((advance line column cs).1 + 1, 1)
      else ((advance line column cs).1, (advance line column cs).2 + 1) := by
  induction cs generalizing line column with
  | nil => rfl
  | cons d cs ih =>
    rw [List.cons_append, advance, advance]
    split
    · exact ih _ _
    · exact ih _ _

/-- The column at the end of a text is counted from its last line feed. -/
theorem advance_snd (cs : List Char) : (advance 1 1 cs).2 = 1 + (lastLine cs).length := by
  induction cs using List.reverseRecOn with
  | nil => rfl
  | append_singleton cs c ih =>
    rw [advance_concat]
    by_cases hc : c = '\n'
    · rw [if_pos hc, lastLine, List.rtakeWhile_concat_neg _ _ _ (by simp [hc])]
      rfl
    · rw [if_neg hc, lastLine, List.rtakeWhile_concat_pos _ _ _ (by simp [hc]), List.length_append, ih]
      rfl

theorem lineAndColumn_snd (front after : List Char) :
    (lineAndColumn (front ++ after) (byteSize front)).2 = 1 + (lastLine front).length := by
  rw [lineAndColumn, before_byteSize, advance_snd]

/-! ## White space around a text -/

/-- A text is white space, a part that neither starts nor ends with white space, and white space again. -/
structure Framed (cs front inner back : List Char) : Prop where
  whole : cs = front ++ (inner ++ back)
  front : ∀ c ∈ front, isBlank c = true
  back : ∀ c ∈ back, isBlank c = true
  first : ∀ c ∈ inner.head?, isBlank c = false
  last : ∀ c ∈ inner.getLast?, isBlank c = false

theorem head?_dropWhile (p : Char → Bool) (cs : List Char) : ∀ c ∈ (cs.dropWhile p).head?, p c = false := by
  intro c hc
  have := List.head?_dropWhile_not p cs
  rw [Option.mem_def.mp hc] at this
  exact this

theorem exists_framed (cs : List Char) : ∃ back, Framed cs (leadingBlanks (trimEnd cs)) (trim cs) back := by
  obtain ⟨back, hcs, hback⟩ := exists_trimEnd_append cs
  have hsplit := leadingBlanks_append_trimStart (trimEnd cs)
  refine ⟨back, ⟨?_, fun c hc => ?_, hback, head?_dropWhile isBlank (trimEnd cs), fun c hc => ?_⟩⟩
  · rw [← List.append_assoc, trim, hsplit, ← hcs]
  · exact List.mem_takeWhile_imp hc
  · have hlast : c ∈ (trimEnd cs).getLast? := by
      rw [← hsplit]
      exact List.mem_getLast?_append_of_mem_getLast? hc
    rw [trimEnd, List.getLast?_reverse] at hlast
    exact head?_dropWhile isBlank cs.reverse c hlast

end PathQuery.Text
