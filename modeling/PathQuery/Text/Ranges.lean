/-!
# Text/Ranges — a property of characters as ranges of code points

A property is the list of its ranges, each with its first and its last code point.
-/

namespace PathQuery.Text

/-- Whether a code point lies in one of some ranges. -/
def inRanges (ranges : List (Nat × Nat)) (n : Nat) : Bool :=
  ranges.any fun (first, last) => first ≤ n && n ≤ last

end PathQuery.Text
