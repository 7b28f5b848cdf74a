import Mathlib.Data.Rat.Floor
import PathQuery.Proofs.Time.Calendar
import PathQuery.Time.Literal

/-!
# Proofs/Time/Instant — the instants that moments and readings of literals are

An instant is a minute of UTC, in one line over all days, and the seconds in it.  A local date and time with an
offset is an instant, whatever day and year the offset leads to (`Reading.instant_moment`), and moments are in
the order of their instants (`Moment.compare_instant`).
-/

namespace PathQuery.Time

open Numeral (natOfDigits natOfDigits_lt)

/-! ## Instants -/

/-- A point in time: its minute in UTC, counted in one line, and the seconds since this minute began.  A minute
that ends with a leap second has 61 seconds. -/
structure Instant where
  minute : Int
  second : ℚ

namespace Instant

/-- The instant at which the second began. -/
def truncated (i : Instant) : Instant := { i with second := ⌊i.second⌋ }

/-- The order in time. -/
def compare (i j : Instant) : Ordering := (Ord.compare i.minute j.minute).then (Ord.compare i.second j.second)

/-- The first minute of a year. -/
def firstMinute (year : Int) : Int := Date.dayNumber ⟨year, 1, 1⟩ * 1440

/-- Whether an instant lies in the years from 0 to 9999. -/
def HasFourDigitYear (i : Instant) : Prop := firstMinute 0 ≤ i.minute ∧ i.minute < firstMinute 10000

end Instant

/-! ## Moments -/

namespace Moment

variable {s t : Moment}

/-- The instant of a moment. -/
def instant (t : Moment) : Instant := ⟨t.date.dayNumber * 1440 + t.minute, t.second⟩

/-- A moment on a day of the calendar. -/
structure Exists (t : Moment) : Prop where
  isValid_date : t.date.isValid = true
  minute_lt : t.minute < 1440
  second_le : t.second ≤ 60

theorem exists_ofLocal {date : Date} {minute second : Nat} {offset : Int} (hdate : date.isValid = true)
    (hminute : minute < 1440) (hsecond : second ≤ 60) (hoffset : offset.natAbs < 1440) :
    (ofLocal date minute second offset).Exists := by
  simp only [ofLocal]
  split
  · exact ⟨Date.isValid_previous hdate, by dsimp only; omega, hsecond⟩
  · split
    · exact ⟨Date.isValid_next hdate, by dsimp only; omega, hsecond⟩
    · exact ⟨hdate, by dsimp only; omega, hsecond⟩

/-- **An offset of less than a day** leads to the instant before by the offset. -/
theorem instant_ofLocal {date : Date} {minute : Nat} {offset : Int} (second : Nat) (hdate : date.isValid = true)
    (hminute : minute < 1440) (hoffset : offset.natAbs < 1440) :
    (ofLocal date minute second offset).instant = ⟨date.dayNumber * 1440 + minute - offset, second⟩ := by
  -- The day before or after has the next number, which makes up for the 1440 minutes.
  simp only [ofLocal]
  split
  · simp only [instant, Date.dayNumber_previous hdate, Instant.mk.injEq, and_true]
    omega
  · split
    · simp only [instant, Date.dayNumber_next hdate, Instant.mk.injEq, and_true]
      omega
    · simp only [instant, Instant.mk.injEq, and_true]
      omega

/-- Without an offset, the moment is the local date and time. -/
theorem ofLocal_zero {date : Date} {minute : Nat} (second : Nat) (hminute : minute < 1440) :
    ofLocal date minute second 0 = ⟨date, minute, second⟩ := by
  have hlow : ¬ (minute : Int) < 0 := by omega
  have hhigh : ¬ 1440 ≤ (minute : Int) := by omega
  simp only [ofLocal, Int.sub_zero, if_neg hlow, if_neg hhigh, Int.toNat_natCast]

/-- **Moments are in the order of their instants.** -/
theorem compare_instant (hs : s.Exists) (ht : t.Exists) :
    s.instant.compare t.instant =
      (((compare s.date.year t.date.year).then
        ((compare s.date.month t.date.month).then (compare s.date.day t.date.day))).then
          (compare s.minute t.minute)).then (compare s.second t.second) := by
  have hline : compare s.instant.minute t.instant.minute =
      (compare s.date.dayNumber t.date.dayNumber).then (compare s.minute t.minute) := by
    have hminute := hs.minute_lt
    have hminute' := ht.minute_lt
    refine compare_eq_then ?_ ?_ fun hday => ?_
    · simp only [instant]
      omega
    · simp only [instant]
      omega
    · rw [instant, instant, hday]
      exact compare_map (f := fun minute : Nat => t.date.dayNumber * 1440 + minute)
        (fun _ _ h => by dsimp only; omega) _ _
  have hsecond : compare s.instant.second t.instant.second = compare s.second t.second :=
    compare_map Nat.strictMono_cast s.second t.second
  rw [Instant.compare, hline, hsecond, Date.compare_dayNumber hs.isValid_date ht.isValid_date]

/-- The years from 0 to 9999 are those of four digits. -/
theorem hasFourDigitYear_iff (ht : t.Exists) :
    t.instant.HasFourDigitYear ↔ 0 ≤ t.date.year ∧ t.date.year < 10000 := by
  have hminute := ht.minute_lt
  have hlow := Date.daysBeforeYear_lt ht.isValid_date
  have hhigh := Date.dayNumber_le ht.isValid_date
  have hfirst : ∀ year, Instant.firstMinute year = (Date.daysBeforeYear year + 1) * 1440 := fun year => by
    simp [Instant.firstMinute, Date.dayNumber, Date.daysBeforeMonth]
  simp only [Instant.HasFourDigitYear, instant, hfirst]
  constructor
  · rintro ⟨hfrom, hto⟩
    refine ⟨Int.not_lt.mp fun h => ?_, Int.not_le.mp fun h => ?_⟩
    · have := Date.daysBeforeYear_mono (show t.date.year + 1 ≤ 0 from h)
      omega
    · have := Date.daysBeforeYear_mono h
      omega
  · rintro ⟨hfrom, hto⟩
    have := Date.daysBeforeYear_mono hfrom
    have := Date.daysBeforeYear_mono (show t.date.year + 1 ≤ 10000 from hto)
    omega

end Moment

/-! ## Readings -/

/-- What a literal says: a local date and time, the digits of a fraction of the second, and by how many minutes
the local time is ahead of UTC. -/
structure Reading where
  date : Date
  hour : Nat
  minute : Nat
  second : Nat
  fraction : List Char
  offset : Int

namespace Reading

variable {r : Reading}

/-- A time of day on a day of the calendar. -/
structure Exists (r : Reading) : Prop where
  isValid_date : r.date.isValid = true
  hour_lt : r.hour < 24
  minute_lt : r.minute < 60
  second_le : r.second ≤ 60

theorem Exists.minuteOfDay_lt (h : r.Exists) : r.hour * 60 + r.minute < 1440 := by
  have hhour := h.hour_lt
  have hminute := h.minute_lt
  omega

/-- The instant that is read. -/
def instant (r : Reading) : Instant where
  minute := r.date.dayNumber * 1440 + (r.hour * 60 + r.minute : Nat) - r.offset
  second := r.second + natOfDigits r.fraction / 10 ^ r.fraction.length

/-- The moment in UTC. -/
def moment (r : Reading) : Moment := .ofLocal r.date (r.hour * 60 + r.minute) r.second r.offset

/-- A date and time of UTC is its moment. -/
theorem Exists.moment_eq (h : r.Exists) (hoffset : r.offset = 0) :
    r.moment = ⟨r.date, r.hour * 60 + r.minute, r.second⟩ := by
  rw [Reading.moment, hoffset, Moment.ofLocal_zero r.second h.minuteOfDay_lt]

theorem Exists.moment (h : r.Exists) (hoffset : r.offset.natAbs < 1440) : r.moment.Exists :=
  Moment.exists_ofLocal h.isValid_date h.minuteOfDay_lt h.second_le hoffset

/-- A fraction is less than a second. -/
theorem floor_second (hfraction : ∀ c ∈ r.fraction, c.isDigit = true) : ⌊r.instant.second⌋ = r.second := by
  have hlt : (natOfDigits r.fraction : ℚ) < 10 ^ r.fraction.length := by exact_mod_cast natOfDigits_lt hfraction
  have hpos : (0 : ℚ) < 10 ^ r.fraction.length := by positivity
  rw [Int.floor_eq_iff, instant, Int.cast_natCast]
  have hle : (0 : ℚ) ≤ natOfDigits r.fraction / 10 ^ r.fraction.length := by positivity
  exact ⟨le_add_of_nonneg_right hle, by simpa using (div_lt_one hpos).mpr hlt⟩

/-- **The moment of a reading is its instant**, cut to the second. -/
theorem instant_moment (h : r.Exists) (hoffset : r.offset.natAbs < 1440)
    (hfraction : ∀ c ∈ r.fraction, c.isDigit = true) : r.moment.instant = r.instant.truncated := by
  rw [Instant.truncated, floor_second hfraction]
  exact Moment.instant_ofLocal r.second h.isValid_date h.minuteOfDay_lt hoffset

end Reading

end PathQuery.Time
