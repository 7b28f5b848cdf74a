import PathQuery.Text.CaseTable
import PathQuery.Text.Ranges

/-!
# Text/LowerCase — full lower-casing

Every character has a lower case of its own, given by the table of simple mappings and by one
character that becomes two.  Only the capital sigma looks at its neighbours: at the end of a word it
becomes the final form.  A sigma ends a word when the nearest character before it that casing does not
ignore is cased, and the nearest one after it is not.
-/

namespace PathQuery.Text

/-- Whether a character is cased. -/
def isCased (c : Char) : Bool := inRanges casedRanges c.toNat

/-- Whether casing ignores a character. -/
def isCaseIgnorable (c : Char) : Bool := inRanges caseIgnorableRanges c.toNat

/-- The simple lower case of a code point. -/
def simpleLower (n : Nat) : Nat :=
  match lowerRuns.find? fun (first, last, step, _) =>
      first ≤ n && n ≤ last && (n - first) % step == 0 with
  | some (first, _, _, target) => target + (n - first)
  | none => n

/-- The lower case of a character that does not depend on its neighbours. -/
def lowerChar (c : Char) : List Char :=
  if c.toNat < 0x80 then [c.toLower]
  else if c = 'İ' then ['i', '\u0307']
  else [Char.ofNat (simpleLower c.toNat)]

/-- Whether the first character that casing does not ignore is cased. -/
def casedAhead : List Char → Bool
  | [] => false
  | c :: rest => if isCaseIgnorable c then casedAhead rest else isCased c

/-- The lower case of a text that follows a text whose last character that casing does not ignore is
cased or not. -/
def lowerAfter (cased : Bool) : List Char → List Char
  | [] => []
  | c :: rest =>
    let here :=
      if c = 'Σ' then [if cased && !casedAhead rest then 'ς' else 'σ'] else lowerChar c
    here ++ lowerAfter (if isCaseIgnorable c then cased else isCased c) rest

/-- The lower case of a text. -/
def lowerCase (cs : List Char) : List Char := lowerAfter false cs

/-- Whether a text occurs inside another. -/
def occursIn (needle : List Char) : List Char → Bool
  | [] => needle.isEmpty
  | c :: rest => needle.isPrefixOf (c :: rest) || occursIn needle rest

/-- A text occurs in another exactly when it is an infix of it. -/
theorem occursIn_iff (needle cs : List Char) :
    occursIn needle cs = true ↔ ∃ before after, cs = before ++ (needle ++ after) := by
  induction cs with
  | nil =>
    simp only [occursIn, List.isEmpty_iff, List.nil_eq, List.append_eq_nil_iff]
    exact ⟨fun h => ⟨[], [], rfl, h, rfl⟩, fun ⟨_, _, _, h, _⟩ => h⟩
  | cons c rest ih =>
    simp only [occursIn, Bool.or_eq_true, ih, List.isPrefixOf_iff_prefix]
    constructor
    · rintro (⟨after, h⟩ | ⟨before, after, h⟩)
      · exact ⟨[], after, h.symm⟩
      · exact ⟨c :: before, after, by rw [h]; rfl⟩
    · rintro ⟨before, after, h⟩
      cases before with
      | nil => exact .inl ⟨after, h.symm⟩
      | cons d before =>
        exact .inr ⟨before, after, (List.cons.inj h).2⟩

end PathQuery.Text
