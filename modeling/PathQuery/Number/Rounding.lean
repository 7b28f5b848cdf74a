/-!
# Number/Rounding — a quotient rounded to the nearest integer, ties to even

`roundHalfEven num den` is the integer nearest to `num / den`; of two equally near integers it is
the even one.  Binary and decimal grids are both reached by scaling the numerator or the
denominator first.
-/

namespace PathQuery

/-- The natural number nearest to `num / den`, the even one of two equally near. -/
def roundHalfEven (num den : Nat) : Nat :=
  let floor := num / den
  let rest := num % den
  if den < 2 * rest ∨ (2 * rest = den ∧ floor % 2 = 1) then floor + 1 else floor

/-- A natural number is its own rounding. -/
theorem roundHalfEven_one (n : Nat) : roundHalfEven n 1 = n := by
  simp [roundHalfEven, Nat.mod_one]

/-- A rounding is the floor of the quotient or the number after it. -/
theorem floor_le_roundHalfEven (num den : Nat) : num / den ≤ roundHalfEven num den := by
  simp only [roundHalfEven]; split <;> omega

theorem roundHalfEven_le_floor_succ (num den : Nat) :
    roundHalfEven num den ≤ num / den + 1 := by
  simp only [roundHalfEven]; split <;> omega

end PathQuery
