/-!
# Time/Date — dates of the Gregorian calendar and the day after and before

The calendar is extended to all years, with a year zero.  `dayNumber` counts days in one line; the day
after a valid date has the next number.
-/

namespace PathQuery.Time

/-- A year, a month from one and a day from one. -/
structure Date where
  year : Int
  month : Nat
  day : Nat
deriving DecidableEq, Repr, Inhabited

/-- Whether a year has a 29th of February. -/
def isLeap (year : Int) : Bool := year % 4 == 0 && (year % 100 != 0 || year % 400 == 0)

/-- The number of days of a month. -/
def monthLength (year : Int) (month : Nat) : Nat :=
  match month with
  | 2 => if isLeap year then 29 else 28
  | 4 | 6 | 9 | 11 => 30
  | _ => 31

namespace Date

/-- Whether month and day exist. -/
def isValid (d : Date) : Bool :=
  1 ≤ d.month && d.month ≤ 12 && 1 ≤ d.day && d.day ≤ monthLength d.year d.month

/-- The day after. -/
def next (d : Date) : Date :=
  if d.day < monthLength d.year d.month then { d with day := d.day + 1 }
  else if d.month < 12 then ⟨d.year, d.month + 1, 1⟩
  else ⟨d.year + 1, 1, 1⟩

/-- The day before. -/
def previous (d : Date) : Date :=
  if 1 < d.day then { d with day := d.day - 1 }
  else if 1 < d.month then ⟨d.year, d.month - 1, monthLength d.year (d.month - 1)⟩
  else ⟨d.year - 1, 12, 31⟩

/-- The days of a year before a month. -/
def daysBeforeMonth (year : Int) : Nat → Nat
  | 0 => 0
  | 1 => 0
  | month + 2 => daysBeforeMonth year (month + 1) + monthLength year (month + 1)

/-- The days before a year, from the start of year zero. -/
def daysBeforeYear (year : Int) : Int :=
  365 * year + ((year + 3) / 4 - (year + 99) / 100 + (year + 399) / 400)

/-- The number of a date in one line of days. -/
def dayNumber (d : Date) : Int := daysBeforeYear d.year + daysBeforeMonth d.year d.month + d.day

end Date

/-- A year is followed after 365 days, after 366 if it is a leap year. -/
theorem daysBeforeYear_succ (year : Int) :
    Date.daysBeforeYear (year + 1) =
      Date.daysBeforeYear year + (if isLeap year then 366 else 365) := by
  unfold Date.daysBeforeYear isLeap
  split <;> simp_all <;> omega

/-- The day after a valid date is valid. -/
theorem Date.isValid_next {d : Date} (h : d.isValid = true) : d.next.isValid = true := by
  obtain ⟨y, m, n⟩ := d
  simp only [isValid, Bool.and_eq_true, decide_eq_true_eq] at h
  simp only [next, isValid]
  split
  · simp; omega
  · split
    · have : 1 ≤ monthLength y (m + 1) := by unfold monthLength; split <;> (try split) <;> omega
      simp; omega
    · simp [monthLength]

/-- The day after a valid date has the next number. -/
theorem Date.dayNumber_next {d : Date} (h : d.isValid = true) :
    d.next.dayNumber = d.dayNumber + 1 := by
  obtain ⟨y, m, n⟩ := d
  simp only [isValid, Bool.and_eq_true, decide_eq_true_eq] at h
  obtain ⟨⟨⟨hm, hm'⟩, hn⟩, hn'⟩ := h
  simp only [next]
  split
  · simp only [dayNumber]; omega
  · have hl : n = monthLength y m := by omega
    split
    · obtain ⟨k, rfl⟩ : ∃ k, m = k + 1 := ⟨m - 1, by omega⟩
      simp only [dayNumber, daysBeforeMonth]; omega
    · have : m = 12 := by omega
      subst this hl
      simp only [dayNumber, daysBeforeYear_succ, daysBeforeMonth, monthLength]
      split <;> omega

end PathQuery.Time
