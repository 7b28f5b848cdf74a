import Mathlib.Algebra.Order.Ring.Int
import PathQuery.Proofs.Number.Digits
import PathQuery.Time.Date

/-!
# Proofs/Time/Calendar — the order of dates is the order of their day numbers

Dates are compared by year, then by month, then by day.  `dayNumber` keeps this order (`Date.compare_dayNumber`):
the days before a month and those of the month fit in before the next one, and the months fit in the year.  So two
dates have different numbers, and the day before a date is the date of the number before.
-/

namespace PathQuery.Time

namespace Date

variable {d e : Date} {month : Nat}

theorem isValid_iff :
    d.isValid = true ↔ (1 ≤ d.month ∧ d.month ≤ 12) ∧ 1 ≤ d.day ∧ d.day ≤ monthLength d.year d.month := by
  simp only [isValid, Bool.and_eq_true, decide_eq_true_eq, and_assoc]

theorem monthLength_pos (year : Int) (month : Nat) : 1 ≤ monthLength year month := by
  unfold monthLength
  split <;> (try split) <;> omega

theorem monthLength_le (year : Int) (month : Nat) : monthLength year month ≤ 31 := by
  unfold monthLength
  split <;> (try split) <;> omega

/-! ## Days before -/

/-- The months of a year fit in before the next year, -/
theorem daysBeforeMonth_twelve (year : Int) :
    (daysBeforeMonth year 12 + monthLength year 12 : Int) = daysBeforeYear (year + 1) - daysBeforeYear year := by
  rw [daysBeforeYear_succ]
  simp only [daysBeforeMonth, monthLength]
  split <;> simp

/-- and years do not overlap. -/
theorem daysBeforeYear_mono {first second : Int} (h : first ≤ second) :
    daysBeforeYear first ≤ daysBeforeYear second := by
  simp only [daysBeforeYear]
  omega

theorem daysBeforeMonth_succ (year : Int) (hmonth : 1 ≤ month) :
    daysBeforeMonth year (month + 1) = daysBeforeMonth year month + monthLength year month := by
  obtain ⟨m, rfl⟩ := Nat.exists_eq_add_of_le' hmonth
  rfl

/-- A month ends before any later one begins. -/
theorem daysBeforeMonth_add_le (year : Int) {later : Nat} (hmonth : 1 ≤ month) (h : month < later) :
    daysBeforeMonth year month + monthLength year month ≤ daysBeforeMonth year later := by
  induction later, h using Nat.le_induction with
  | base => exact (daysBeforeMonth_succ year hmonth).ge
  | succ later hlater ih =>
    rw [daysBeforeMonth_succ year (by omega)]
    omega

/-- A valid date lies in its year. -/
theorem dayNumber_le (h : d.isValid = true) : d.dayNumber ≤ daysBeforeYear (d.year + 1) := by
  obtain ⟨⟨hmonth, hmonth'⟩, -, hday⟩ := isValid_iff.mp h
  have hyear := daysBeforeMonth_twelve d.year
  rw [dayNumber]
  rcases Nat.lt_or_eq_of_le hmonth' with hlt | heq
  · have := daysBeforeMonth_add_le d.year hmonth hlt
    omega
  · rw [heq] at hday ⊢
    omega

theorem daysBeforeYear_lt (h : d.isValid = true) : daysBeforeYear d.year < d.dayNumber := by
  obtain ⟨-, hday, -⟩ := isValid_iff.mp h
  rw [dayNumber]
  omega

/-! ## The order of dates -/

theorem dayNumber_lt_of_year_lt (hd : d.isValid = true) (he : e.isValid = true) (h : d.year < e.year) :
    d.dayNumber < e.dayNumber :=
  calc d.dayNumber ≤ daysBeforeYear (d.year + 1) := dayNumber_le hd
    _ ≤ daysBeforeYear e.year := daysBeforeYear_mono h
    _ < e.dayNumber := daysBeforeYear_lt he

theorem dayNumber_lt_of_month_lt (hd : d.isValid = true) (he : e.isValid = true) (hyear : d.year = e.year)
    (h : d.month < e.month) : d.dayNumber < e.dayNumber := by
  obtain ⟨⟨hmonth, -⟩, -, hday⟩ := isValid_iff.mp hd
  obtain ⟨-, hday', -⟩ := isValid_iff.mp he
  have hle := daysBeforeMonth_add_le d.year hmonth h
  rw [dayNumber, dayNumber, ← hyear]
  omega

/-- **Day numbers are in the order of the dates.** -/
theorem compare_dayNumber (hd : d.isValid = true) (he : e.isValid = true) :
    compare d.dayNumber e.dayNumber =
      (compare d.year e.year).then ((compare d.month e.month).then (compare d.day e.day)) := by
  refine compare_eq_then (dayNumber_lt_of_year_lt hd he) (dayNumber_lt_of_year_lt he hd) fun hyear => ?_
  refine compare_eq_then (dayNumber_lt_of_month_lt hd he hyear) (dayNumber_lt_of_month_lt he hd hyear.symm)
    fun hmonth => ?_
  obtain ⟨before, hday, hday'⟩ : ∃ before : Int, d.dayNumber = before + d.day ∧ e.dayNumber = before + e.day :=
    ⟨daysBeforeYear d.year + daysBeforeMonth d.year d.month, rfl, by rw [dayNumber, hyear, hmonth]⟩
  rw [hday, hday']
  exact compare_map (f := fun day : Nat => before + day) (fun _ _ h => by dsimp only; omega) _ _

/-! ## The day before -/

theorem isValid_previous (h : d.isValid = true) : d.previous.isValid = true := by
  obtain ⟨⟨hmonth, hmonth'⟩, hday, hday'⟩ := isValid_iff.mp h
  rw [isValid_iff, previous]
  split
  · exact ⟨⟨hmonth, hmonth'⟩, by dsimp only; omega, by dsimp only; omega⟩
  · split
    · exact ⟨⟨by dsimp only; omega, by dsimp only; omega⟩, monthLength_pos _ _, le_rfl⟩
    · simp [monthLength]

/-- The day before a valid date has the number before. -/
theorem dayNumber_previous (h : d.isValid = true) : d.previous.dayNumber = d.dayNumber - 1 := by
  obtain ⟨⟨hmonth, hmonth'⟩, hday, -⟩ := isValid_iff.mp h
  rw [previous]
  split
  · simp only [dayNumber]
    omega
  · split
    · have hsucc := daysBeforeMonth_succ d.year (by omega : 1 ≤ d.month - 1)
      rw [Nat.sub_add_cancel hmonth] at hsucc
      simp only [dayNumber, hsucc]
      omega
    · have hyear := daysBeforeMonth_twelve (d.year - 1)
      have hmonth : d.month = 1 := by omega
      rw [Int.sub_add_cancel] at hyear
      simp only [dayNumber, hmonth, monthLength, daysBeforeMonth] at hyear ⊢
      omega

end Date

end PathQuery.Time
