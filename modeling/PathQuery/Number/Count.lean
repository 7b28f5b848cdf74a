import PathQuery.Number.Numeral

/-!
# Number/Count — written counts that fit an unsigned 64-bit word
-/

namespace PathQuery

/-- The count that a text denotes: at least one digit after an optional plus sign. -/
def Numeral.count? (text : String) : Option Nat := do
  let digits := match text.toList with
    | '+' :: rest => rest
    | cs => cs
  if digits.isEmpty ∨ !digits.all Char.isDigit then none
  let n := Numeral.natOfDigits digits
  if n < wordCount then some n else none

end PathQuery
