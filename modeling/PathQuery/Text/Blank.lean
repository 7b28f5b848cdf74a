/-!
# Text/Blank — white space and the trimming of it

White space is the Unicode property White_Space: twenty-five characters.  A text is its leading
blanks, its trimmed part and its trailing blanks, in this order.
-/

namespace PathQuery.Text

/-- Whether a character has the property White_Space. -/
def isBlank (c : Char) : Bool :=
  let n := c.toNat
  (0x9 ≤ n && n ≤ 0xD) || n == 0x20 || n == 0x85 || n == 0xA0 || n == 0x1680 ||
    (0x2000 ≤ n && n ≤ 0x200A) || n == 0x2028 || n == 0x2029 || n == 0x202F || n == 0x205F ||
    n == 0x3000

/-- The text without blanks at its front. -/
def trimStart (cs : List Char) : List Char := cs.dropWhile isBlank

/-- The text without blanks at its end. -/
def trimEnd (cs : List Char) : List Char := (cs.reverse.dropWhile isBlank).reverse

/-- The text without blanks at both ends. -/
def trim (cs : List Char) : List Char := trimStart (trimEnd cs)

/-- The blanks at the front of a text. -/
def leadingBlanks (cs : List Char) : List Char := cs.takeWhile isBlank

/-- A text is its leading blanks and the rest. -/
theorem leadingBlanks_append_trimStart (cs : List Char) :
    leadingBlanks cs ++ trimStart cs = cs := List.takeWhile_append_dropWhile

/-- What trimming removes at the end is blank. -/
theorem exists_trimEnd_append (cs : List Char) :
    ∃ blanks, cs = trimEnd cs ++ blanks ∧ ∀ c ∈ blanks, isBlank c = true := by
  refine ⟨(cs.reverse.takeWhile isBlank).reverse, ?_, ?_⟩
  · rw [trimEnd, ← List.reverse_append, List.takeWhile_append_dropWhile, List.reverse_reverse]
  · intro c h
    exact List.all_eq_true.1 (List.all_takeWhile) c (List.mem_reverse.1 h)

/-- A text that neither starts nor ends with a blank has nothing to trim. -/
theorem trim_eq_self {cs : List Char} (hfirst : ∀ c ∈ cs.head?, isBlank c = false)
    (hlast : ∀ c ∈ cs.getLast?, isBlank c = false) : trim cs = cs := by
  have hkeep : ∀ ds : List Char, (∀ c ∈ ds.head?, isBlank c = false) → ds.dropWhile isBlank = ds := by
    intro ds h
    cases ds with
    | nil => rfl
    | cons c rest => rw [List.dropWhile_cons_of_neg]; simp [h c rfl]
  have hend : trimEnd cs = cs := by
    rw [trimEnd, hkeep cs.reverse (by simpa using hlast), List.reverse_reverse]
  rw [trim, hend, trimStart, hkeep cs hfirst]

/-- The text without white space at both ends. -/
def trimmed (s : String) : String := String.ofList (trim s.toList)

end PathQuery.Text
