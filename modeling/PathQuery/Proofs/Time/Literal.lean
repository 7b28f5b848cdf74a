import PathQuery.Proofs.Time.Grammar

/-!
# Proofs/Time/Literal — what a literal of a point in time denotes

The literals that are read are those of the grammar (`ofLiteral?_eq_some_iff`).  The forms are tried one after the
other, but no word has two of them: the offset of a timestamp is left over when its date and time are read as short
numbers (`Timestamp.not_short`), and a date is not followed by a time.
-/

namespace PathQuery.Time

open Numeral (Digits NoDigit noDigit_cons)

variable {cs rest ds : List Char} {r : Reading} {offset : Int}

/-! ## The ends of timestamps -/

theorem skipFraction_point (cs : List Char) : skipFraction ('.' :: cs) = (digits? cs).map Prod.snd := by
  simp only [skipFraction, digits?]
  split <;> rfl

theorem skipFraction_of_ne (h : cs.head? ≠ some '.') : skipFraction cs = some cs := by
  rw [skipFraction.eq_def]
  split
  · exact absurd rfl h
  · rfl

theorem exists_fraction (h : skipFraction cs = some rest) :
    ∃ ds word, Fraction ds word ∧ cs = word ++ rest := by
  by_cases hpoint : cs.head? = some '.'
  · obtain ⟨cs, rfl⟩ := List.head?_eq_some_iff.mp hpoint
    rw [skipFraction_point] at h
    obtain ⟨⟨n, _⟩, hn, rfl⟩ := Option.map_eq_some_iff.mp h
    obtain ⟨ds, ⟨width, hpos, hlen, hds, -⟩, rfl⟩ := reads_digits.word hn
    exact ⟨ds, _, .some (List.length_pos_iff.mp (hlen ▸ hpos)) hds, rfl⟩
  · rw [skipFraction_of_ne hpoint] at h
    cases h
    exact ⟨[], [], .none, rfl⟩

theorem skipFraction_append {digits word : List Char} (h : Fraction digits word) (hrest : NoDigit rest)
    (hpoint : rest.head? ≠ some '.') : skipFraction (word ++ rest) = some rest := by
  cases h with
  | none => exact skipFraction_of_ne hpoint
  | some hne hds =>
    have hread := reads_digits.read ⟨_, List.length_pos_iff.mpr hne, rfl, hds, rfl⟩ hrest
    rw [List.cons_append, skipFraction_point, hread]
    rfl

/-- Reads the hours and minutes of an offset, up to the end of the text. -/
def ahead? (cs : List Char) : Option Nat := do
  let (hours, cs) ← twoDigits cs
  let (minutes, cs) ← twoDigits (← mark ':' cs)
  if cs.isEmpty ∧ hours < 24 ∧ minutes < 60 then some (hours * 60 + minutes) else none

/-- An offset that is not a letter alone is a sign with hours and minutes. -/
theorem offset?_sign {sign : Char} (h : ¬ ((sign = 'Z' ∨ sign = 'z') ∧ cs = [])) :
    offset? (sign :: cs) =
      if sign = '+' then (ahead? cs).map fun m : Nat => (m : Int)
      else if sign = '-' ∨ sign = '−' then (ahead? cs).map fun m : Nat => -(m : Int)
      else none := by
  rw [offset?.eq_def]
  split
  · rename_i hc
    cases hc
    exact absurd ⟨.inl rfl, rfl⟩ h
  · rename_i hc
    cases hc
    exact absurd ⟨.inr rfl, rfl⟩ h
  · rename_i hc
    cases hc
    simp only [ahead?, Option.bind_eq_bind, Option.bind_some, Option.map_bind, Function.comp_def,
      apply_ite (Option.map _), Option.map_some, Option.map_none, Bool.false_eq_true, if_false, if_true]
    rfl
  · rename_i hc
    cases hc

theorem ahead?_eq_some_iff {m : Nat} :
    ahead? cs = some m ↔ ∃ hours minutes hs ms, hours < 24 ∧ minutes < 60 ∧ Digits 2 hours hs ∧
      Digits 2 minutes ms ∧ cs = hs ++ ':' :: ms ∧ m = hours * 60 + minutes := by
  constructor
  · intro h
    obtain ⟨⟨hours, cs₁⟩, hhours, h⟩ := Option.bind_eq_some_iff.mp h
    obtain ⟨cs₂, hmark, h⟩ := Option.bind_eq_some_iff.mp h
    obtain ⟨⟨minutes, cs₃⟩, hminutes, h⟩ := Option.bind_eq_some_iff.mp h
    simp only [Option.ite_none_right_eq_some, List.isEmpty_iff, Option.some.injEq] at h
    obtain ⟨⟨rfl, hlt, hlt'⟩, rfl⟩ := h
    obtain ⟨hs, hhs, rfl⟩ := reads_twoDigits.word hhours
    obtain ⟨ms, hms, rfl⟩ := reads_twoDigits.word hminutes
    rw [mark_eq_some_iff, List.append_nil] at hmark
    exact ⟨hours, minutes, hs, ms, hlt, hlt', hhs, hms, hmark ▸ rfl, rfl⟩
  · rintro ⟨hours, minutes, hs, ms, hlt, hlt', hhs, hms, rfl, rfl⟩
    have hhours := reads_twoDigits.read hhs (noDigit_cons (rfl : ':'.isDigit = false) ms)
    have hminutes := reads_twoDigits.read hms Numeral.noDigit_nil
    rw [List.append_nil] at hminutes
    simp [ahead?, hhours, mark, hminutes, hlt, hlt']

theorem zone_of_offset? (h : offset? cs = some offset) : Zone offset cs := by
  match cs with
  | [] => cases h
  | sign :: cs =>
    by_cases hutc : (sign = 'Z' ∨ sign = 'z') ∧ cs = []
    · obtain ⟨hsign, rfl⟩ := hutc
      have hzero : offset? [sign] = some 0 := by rcases hsign with rfl | rfl <;> rfl
      cases hzero.symm.trans h
      exact .utc hsign
    · rw [offset?_sign hutc] at h
      split at h
      · rename_i hplus
        obtain ⟨m, hm, rfl⟩ := Option.map_eq_some_iff.mp h
        obtain ⟨hours, minutes, hs, ms, hlt, hlt', hhs, hms, rfl, rfl⟩ := ahead?_eq_some_iff.mp hm
        exact hplus ▸ .ahead hlt hlt' hhs hms
      · split at h
        · rename_i hminus
          obtain ⟨m, hm, rfl⟩ := Option.map_eq_some_iff.mp h
          obtain ⟨hours, minutes, hs, ms, hlt, hlt', hhs, hms, rfl, rfl⟩ := ahead?_eq_some_iff.mp hm
          exact .behind hminus hlt hlt' hhs hms
        · cases h

theorem offset?_of_zone (h : Zone offset cs) : offset? cs = some offset := by
  cases h with
  | utc h => rcases h with rfl | rfl <;> rfl
  | ahead hlt hlt' hhs hms =>
    rw [offset?_sign (by simp), if_pos rfl,
      ahead?_eq_some_iff.mpr ⟨_, _, _, _, hlt, hlt', hhs, hms, rfl, rfl⟩]
    rfl
  | behind hsign hlt hlt' hhs hms =>
    have hplus : ∀ {sign : Char}, sign = '-' ∨ sign = '−' → sign ≠ '+' := by
      rintro _ (rfl | rfl) <;> decide
    rw [offset?_sign (by simp), if_neg (hplus hsign), if_pos hsign,
      ahead?_eq_some_iff.mpr ⟨_, _, _, _, hlt, hlt', hhs, hms, rfl, rfl⟩]
    rfl

/-- An offset begins with a letter or a sign. -/
theorem Zone.exists_cons (h : Zone offset cs) :
    ∃ c rest, cs = c :: rest ∧ c.isDigit = false ∧ c ≠ '.' := by
  cases h with
  | utc h => exact ⟨_, _, rfl, by rcases h with rfl | rfl <;> decide⟩
  | ahead => exact ⟨_, _, rfl, by decide⟩
  | behind hsign => exact ⟨_, _, rfl, by rcases hsign with rfl | rfl <;> decide⟩

/-! ## The three forms -/

theorem reads_fixedDate : Reads (triple '-' fourDigits twoDigits twoDigits) fun x =>
    FixedDate x.1 x.2.1 x.2.2 :=
  .triple reads_fourDigits reads_twoDigits reads_twoDigits rfl

theorem reads_fixedTime : Reads (triple ':' twoDigits twoDigits twoDigits) fun x =>
    FixedTime x.1 x.2.1 x.2.2 :=
  .triple reads_twoDigits reads_twoDigits reads_twoDigits rfl

theorem reads_shortDate : Reads (triple '-' shortYear shortNumber shortNumber) fun x =>
    ShortDate x.1 x.2.1 x.2.2 :=
  .triple reads_shortYear reads_shortNumber reads_shortNumber rfl

theorem reads_shortTime : Reads (triple ':' shortNumber shortNumber shortNumber) fun x =>
    ShortTime x.1 x.2.1 x.2.2 :=
  .triple reads_shortNumber reads_shortNumber reads_shortNumber rfl

/-- The character between date and time of a timestamp. -/
def separator? : List Char → Option (List Char)
  | c :: rest => if c = 'T' ∨ c = 't' ∨ c = ' ' then some rest else none
  | [] => none

theorem timestamp?_eq (cs : List Char) : timestamp? cs = (do
    let ((year, month, day), cs) ← triple '-' fourDigits twoDigits twoDigits cs
    let cs ← separator? cs
    let ((hour, minute, second), cs) ← triple ':' twoDigits twoDigits twoDigits cs
    let cs ← skipFraction cs
    let offset ← offset? cs
    let (minute, second) ← timeOfDay? hour minute second
    let date : Date := ⟨year, month, day⟩
    if date.isValid then some (.ofLocal date minute second offset) else none) := by
  simp only [timestamp?, triple, bind_assoc, pure_bind]
  iterate 5 refine bind_congr fun _ => ?_
  rename_i day
  obtain ⟨_, _ | ⟨c, rest⟩⟩ := day
  · rfl
  · simp only [separator?]
    split <;> rfl

theorem shortDate_eq (cs : List Char) : shortDate cs = (do
    let ((year, month, day), cs) ← triple '-' shortYear shortNumber shortNumber cs
    let date : Date := ⟨year, month, day⟩
    if date.isValid && yearInRange year then some (date, cs) else none) := by
  simp only [shortDate, triple, bind_assoc, pure_bind]

theorem localTime?_eq (cs : List Char) : localTime? cs = (do
    let (date, cs) ← shortDate cs
    let ((hour, minute, second), cs) ← triple ':' shortNumber shortNumber shortNumber (← mark 'T' cs)
    let (minute, second) ← timeOfDay? hour minute second
    if cs.isEmpty then some ⟨date, minute, second⟩ else none) := by
  simp only [localTime?, triple, bind_assoc, pure_bind]

theorem timeOfDay?_eq_some_iff {hour minute second m n : Nat} :
    timeOfDay? hour minute second = some (m, n) ↔
      (hour < 24 ∧ minute < 60 ∧ second ≤ 60) ∧ hour * 60 + minute = m ∧ second = n := by
  simp only [timeOfDay?, Option.ite_none_right_eq_some, Option.some.injEq, Prod.mk.injEq]

/-- The front of a text that is read as a date of short numbers. -/
theorem reads_date : Reads shortDate fun d ds =>
    ShortDate d.year d.month d.day ds ∧ d.isValid = true ∧ yearInRange d.year = true where
  word {d cs rest} h := by
    rw [shortDate_eq] at h
    obtain ⟨⟨⟨year, month, day⟩, rest'⟩, hdate, h⟩ := Option.bind_eq_some_iff.mp h
    simp only [Option.ite_none_right_eq_some, Bool.and_eq_true, Option.some.injEq, Prod.mk.injEq] at h
    obtain ⟨hvalid, rfl, rfl⟩ := h
    obtain ⟨ds, hds, rfl⟩ := reads_shortDate.word hdate
    exact ⟨ds, ⟨hds, hvalid⟩, rfl⟩
  read {d ds rest} h hrest := by
    obtain ⟨hds, hvalid, hrange⟩ := h
    obtain ⟨year, month, day⟩ := d
    have hread := reads_shortDate.read (a := (year, month, day)) hds hrest
    rw [shortDate_eq, hread]
    simp [hvalid, hrange]

theorem noDigit_separator {sep : Char} (h : sep = 'T' ∨ sep = 't' ∨ sep = ' ') (rest : List Char) :
    NoDigit (sep :: rest) :=
  noDigit_cons (by rcases h with rfl | rfl | rfl <;> decide) rest

theorem localTime?_eq_some_iff {t : Moment} :
    localTime? cs = some t ↔ ∃ r, DateTime r cs ∧ r.Exists ∧ r.moment = t := by
  rw [localTime?_eq]
  constructor
  · intro h
    obtain ⟨⟨date, cs₁⟩, hdate, h⟩ := Option.bind_eq_some_iff.mp h
    obtain ⟨cs₂, hmark, h⟩ := Option.bind_eq_some_iff.mp h
    obtain ⟨⟨⟨hour, minute, second⟩, cs₃⟩, htime, h⟩ := Option.bind_eq_some_iff.mp h
    obtain ⟨⟨m, n⟩, hday, h⟩ := Option.bind_eq_some_iff.mp h
    simp only [Option.ite_none_right_eq_some, List.isEmpty_iff, Option.some.injEq] at h
    obtain ⟨rfl, rfl⟩ := h
    obtain ⟨⟨hhour, hminute, hsecond⟩, rfl, rfl⟩ := timeOfDay?_eq_some_iff.mp hday
    obtain ⟨ds, ⟨hds, hvalid, hrange⟩, rfl⟩ := reads_date.word hdate
    cases mark_eq_some_iff.mp hmark
    obtain ⟨ts, hts, rfl⟩ := reads_shortTime.word htime
    rw [List.append_nil]
    have hr : Reading.Exists ⟨date, hour, minute, second, [], 0⟩ := ⟨hvalid, hhour, hminute, hsecond⟩
    exact ⟨_, .mk hds hrange hts, hr, hr.moment_eq rfl⟩
  · rintro ⟨r, hform, hr, rfl⟩
    obtain ⟨hds, hrange, hts⟩ := hform
    rw [hr.moment_eq rfl]
    obtain ⟨hvalid, hhour, hminute, hsecond⟩ := hr
    dsimp only at hhour hminute hsecond
    have hdate (rest : List Char) :=
      reads_date.read ⟨hds, hvalid, hrange⟩ (noDigit_cons (rfl : 'T'.isDigit = false) rest)
    have htime := reads_shortTime.read (a := (_, _, _)) hts Numeral.noDigit_nil
    rw [List.append_nil] at htime
    have hday := timeOfDay?_eq_some_iff.mpr ⟨⟨hhour, hminute, hsecond⟩, rfl, rfl⟩
    simp [hdate, mark, htime, hday]

theorem date?_eq_some_iff {t : Moment} :
    date? cs = some t ↔ ∃ r, Midnight r cs ∧ r.Exists ∧ r.moment = t := by
  constructor
  · intro h
    obtain ⟨⟨date, cs₁⟩, hdate, h⟩ := Option.bind_eq_some_iff.mp h
    simp only [Option.ite_none_right_eq_some, List.isEmpty_iff, Option.some.injEq] at h
    obtain ⟨rfl, rfl⟩ := h
    obtain ⟨ds, ⟨hds, hvalid, hrange⟩, rfl⟩ := reads_date.word hdate
    rw [List.append_nil]
    have hr : Reading.Exists ⟨date, 0, 0, 0, [], 0⟩ :=
      ⟨hvalid, Nat.succ_pos 23, Nat.succ_pos 59, Nat.zero_le 60⟩
    exact ⟨_, .mk hds hrange, hr, hr.moment_eq rfl⟩
  · rintro ⟨r, hform, hr, rfl⟩
    obtain ⟨hds, hrange⟩ := hform
    have hdate := reads_date.read ⟨hds, hr.isValid_date, hrange⟩ Numeral.noDigit_nil
    rw [List.append_nil] at hdate
    rw [hr.moment_eq rfl]
    simp [date?, hdate]

theorem separator?_eq_some_iff :
    separator? cs = some rest ↔ ∃ sep, (sep = 'T' ∨ sep = 't' ∨ sep = ' ') ∧ cs = sep :: rest := by
  match cs with
  | [] => simp [separator?]
  | c :: cs =>
    simp only [separator?, Option.ite_none_right_eq_some, Option.some.injEq, List.cons.injEq]
    constructor
    · rintro ⟨hsep, rfl⟩
      exact ⟨c, hsep, rfl, rfl⟩
    · rintro ⟨_, hsep, rfl, rfl⟩
      exact ⟨hsep, rfl⟩

/-- What is left of a timestamp after the seconds is not empty and begins with no digit. -/
theorem noDigit_fraction_zone {digits fraction zone : List Char} (hfraction : Fraction digits fraction)
    (hzone : Zone offset zone) :
    NoDigit (fraction ++ zone) ∧ fraction ++ zone ≠ [] ∧ NoDigit zone ∧ zone.head? ≠ some '.' := by
  obtain ⟨c, rest, rfl, hc, hpoint⟩ := hzone.exists_cons
  refine ⟨?_, by simp, noDigit_cons hc rest, by simpa using hpoint⟩
  cases hfraction with
  | none => exact noDigit_cons hc rest
  | some => exact noDigit_cons (rfl : '.'.isDigit = false) _

theorem timestamp?_eq_some_iff {t : Moment} :
    timestamp? cs = some t ↔ ∃ r, Timestamp r cs ∧ r.Exists ∧ r.moment = t := by
  rw [timestamp?_eq]
  constructor
  · intro h
    obtain ⟨⟨⟨year, month, day⟩, cs₁⟩, hdate, h⟩ := Option.bind_eq_some_iff.mp h
    obtain ⟨cs₂, hcs, h⟩ := Option.bind_eq_some_iff.mp h
    obtain ⟨⟨⟨hour, minute, second⟩, cs₃⟩, htime, h⟩ := Option.bind_eq_some_iff.mp h
    obtain ⟨cs₄, hskip, h⟩ := Option.bind_eq_some_iff.mp h
    obtain ⟨offset, hoffset, h⟩ := Option.bind_eq_some_iff.mp h
    obtain ⟨⟨m, n⟩, hday, h⟩ := Option.bind_eq_some_iff.mp h
    simp only [Option.ite_none_right_eq_some, Option.some.injEq] at h
    obtain ⟨hvalid, rfl⟩ := h
    obtain ⟨⟨hhour, hminute, hsecond⟩, rfl, rfl⟩ := timeOfDay?_eq_some_iff.mp hday
    obtain ⟨ds, hds, rfl⟩ := reads_fixedDate.word hdate
    obtain ⟨sep, hsep, rfl⟩ := separator?_eq_some_iff.mp hcs
    obtain ⟨ts, hts, rfl⟩ := reads_fixedTime.word htime
    obtain ⟨digits, fraction, hfraction, rfl⟩ := exists_fraction hskip
    exact ⟨_, .mk hds hsep hts hfraction (zone_of_offset? hoffset), ⟨hvalid, hhour, hminute, hsecond⟩, rfl⟩
  · rintro ⟨r, hform, ⟨hvalid, hhour, hminute, hsecond⟩, rfl⟩
    obtain ⟨hds, hsep, hts, hfraction, hzone⟩ := hform
    dsimp only at hhour hminute hsecond
    obtain ⟨hend, -, hzone', hpoint⟩ := noDigit_fraction_zone hfraction hzone
    have hdate (rest : List Char) := reads_fixedDate.read (a := (_, _, _)) hds (noDigit_separator hsep rest)
    have hread (rest : List Char) := separator?_eq_some_iff.mpr ⟨_, hsep, (rfl : _ = _ :: rest)⟩
    have htime := reads_fixedTime.read (a := (_, _, _)) hts hend
    have hday := timeOfDay?_eq_some_iff.mpr ⟨⟨hhour, hminute, hsecond⟩, rfl, rfl⟩
    simp [hdate, hread, htime, skipFraction_append hfraction hzone' hpoint, offset?_of_zone hzone, hday,
      hvalid, Reading.moment]

/-! ## No word has two forms -/

theorem FixedDate.short {year month day : Nat} (h : FixedDate year month day cs) :
    ShortDate year month day cs := by
  obtain ⟨ys, ms, ds, hys, hms, hds, rfl⟩ := h
  exact ⟨ys, ms, ds, .self (.plain (by decide) le_rfl hys), .self (.inr hms), .self (.inr hds), rfl⟩

theorem FixedTime.short {hour minute second : Nat} (h : FixedTime hour minute second cs) :
    ShortTime hour minute second cs := by
  obtain ⟨hs, ms, ss, hhs, hms, hss, rfl⟩ := h
  exact ⟨hs, ms, ss, .self (.inr hhs), .self (.inr hms), .self (.inr hss), rfl⟩

theorem FixedDate.yearInRange {year month day : Nat} (h : FixedDate year month day cs) :
    yearInRange year = true := by
  obtain ⟨ys, _, _, ⟨hlen, hds, rfl⟩, _⟩ := h
  have hlt := Numeral.natOfDigits_lt hds
  rw [hlen] at hlt
  simp [Time.yearInRange]
  omega

/-- The offset is left over when a timestamp is read as short numbers. -/
theorem Timestamp.not_short (h : Timestamp r cs) (hr : r.Exists) :
    localTime? cs = none ∧ date? cs = none := by
  obtain ⟨hds, hsep, hts, hfraction, hzone⟩ := h
  obtain ⟨hend, hne, -, -⟩ := noDigit_fraction_zone hfraction hzone
  have hdate (rest : List Char) :=
    reads_date.read ⟨hds.short, hr.isValid_date, hds.yearInRange⟩ (noDigit_separator hsep rest)
  have htime := reads_shortTime.read (a := (_, _, _)) hts.short hend
  have hday := timeOfDay?_eq_some_iff.mpr ⟨⟨hr.hour_lt, hr.minute_lt, hr.second_le⟩, rfl, rfl⟩
  dsimp only at hday
  refine ⟨?_, by simp [date?, hdate]⟩
  rw [localTime?_eq, hdate]
  simp only [mark, Option.bind_eq_bind, Option.bind_some]
  -- The hours are read only after a `T`, and then the fraction or the offset is left over.
  split
  · simp [htime, hday, hne]
  · rfl

/-- A date is not followed by a time. -/
theorem Midnight.localTime?_eq_none (h : Midnight r cs) (hr : r.Exists) : localTime? cs = none := by
  obtain ⟨hds, hrange⟩ := h
  have hdate := reads_date.read ⟨hds, hr.isValid_date, hrange⟩ Numeral.noDigit_nil
  rw [List.append_nil] at hdate
  rw [localTime?_eq, hdate]
  rfl

/-- A literal without its wrapping is read by its form. -/
theorem read_eq_some_iff {t : Moment} :
    (timestamp? cs).or ((localTime? cs).or (date? cs)) = some t ↔
      ∃ r, Form r cs ∧ r.Exists ∧ r.moment = t := by
  constructor
  · intro h
    rcases Option.or_eq_some_iff.mp h with h | ⟨-, h⟩
    · obtain ⟨r, hr, h⟩ := timestamp?_eq_some_iff.mp h
      exact ⟨r, .inl hr, h⟩
    · rcases Option.or_eq_some_iff.mp h with h | ⟨-, h⟩
      · obtain ⟨r, hr, h⟩ := localTime?_eq_some_iff.mp h
        exact ⟨r, .inr (.inl hr), h⟩
      · obtain ⟨r, hr, h⟩ := date?_eq_some_iff.mp h
        exact ⟨r, .inr (.inr hr), h⟩
  · -- A word of one form is refused by the readers before its own.
    rintro ⟨r, hform | hform | hform, hr, rfl⟩
    · rw [timestamp?_eq_some_iff.mpr ⟨r, hform, hr, rfl⟩, Option.some_or]
    · have hread := localTime?_eq_some_iff.mpr ⟨r, hform, hr, rfl⟩
      have hnone : timestamp? cs = none := Option.eq_none_iff_forall_ne_some.mpr fun t ht => by
        obtain ⟨r, hform, hr, -⟩ := timestamp?_eq_some_iff.mp ht
        cases (hform.not_short hr).1.symm.trans hread
      rw [hnone, hread, Option.none_or, Option.some_or]
    · have hread := date?_eq_some_iff.mpr ⟨r, hform, hr, rfl⟩
      have hnone : timestamp? cs = none := Option.eq_none_iff_forall_ne_some.mpr fun t ht => by
        obtain ⟨r, hform, hr, -⟩ := timestamp?_eq_some_iff.mp ht
        cases (hform.not_short hr).2.symm.trans hread
      rw [hnone, hform.localTime?_eq_none hr, hread, Option.none_or, Option.none_or]

/-! ## Literals -/

theorem unwrapped_wrapped (cs : List Char) : unwrapped ("datetime'".toList ++ cs ++ ['\'']) = cs := by
  have hprefix : "datetime'".toList.isPrefixOf ("datetime'".toList ++ cs ++ ['\'']) = true := by
    rw [List.isPrefixOf_iff_prefix, List.append_assoc]
    exact List.prefix_append _ _
  have hdrop : ("datetime'".toList ++ cs ++ ['\'']).drop 9 = cs ++ ['\''] := by
    rw [List.append_assoc]
    exact List.drop_left' rfl
  rw [unwrapped, hprefix, hdrop, List.getLast?_concat]
  exact List.dropLast_concat

/-- What is read of a literal is the literal, or the part that it wraps. -/
theorem unwrapped_cases (cs : List Char) :
    unwrapped cs = cs ∨ cs = "datetime'".toList ++ unwrapped cs ++ ['\''] := by
  rw [unwrapped]
  split
  · rename_i hprefix hlast
    right
    obtain ⟨rest, rfl⟩ := List.isPrefixOf_iff_prefix.mp hprefix
    have hdrop : ("datetime'".toList ++ rest).drop 9 = rest := List.drop_left' rfl
    rw [hdrop] at hlast ⊢
    rw [List.append_assoc, List.dropLast_append_getLast? _ hlast]
  · exact .inl rfl

theorem ShortDate.exists_cons {year : Int} {month day : Nat} (h : ShortDate year month day cs) :
    ∃ c rest, cs = c :: rest ∧ c ≠ 'd' := by
  obtain ⟨_, _, _, ⟨blanks, ds, hblanks, hds, rfl⟩, _, _, rfl⟩ := h
  match blanks with
  | c :: blanks =>
    refine ⟨c, _, rfl, ?_⟩
    rintro rfl
    exact absurd (hblanks 'd' (.head _)) (by decide)
  | [] =>
    cases hds with
    | plain hpos _ hds =>
      match ds with
      | [] => exact absurd hds.length_eq (Nat.ne_of_lt hpos)
      | c :: ds =>
        refine ⟨c, _, rfl, ?_⟩
        rintro rfl
        exact absurd (hds.isDigit 'd' (.head _)) (by decide)
    | plus => exact ⟨'+', _, rfl, by decide⟩
    | minus => exact ⟨'-', _, rfl, by decide⟩

/-- A form does not begin as the wrapping does. -/
theorem Form.unwrapped_eq (h : Form r cs) : unwrapped cs = cs := by
  have hhead : ∃ c rest, cs = c :: rest ∧ c ≠ 'd' := by
    have happend : ∀ {date : List Char} (rest : List Char), (∃ c cs, date = c :: cs ∧ c ≠ 'd') →
        ∃ c cs, date ++ rest = c :: cs ∧ c ≠ 'd' := by
      rintro _ rest ⟨c, cs, rfl, hc⟩
      exact ⟨c, cs ++ rest, rfl, hc⟩
    obtain ⟨hds, _, _, _, _⟩ | ⟨hds, _, _⟩ | ⟨hds, _⟩ := h
    · exact happend _ hds.short.exists_cons
    · exact happend _ (ShortDate.exists_cons hds)
    · exact ShortDate.exists_cons hds
  obtain ⟨c, rest, rfl, hc⟩ := hhead
  rcases unwrapped_cases (c :: rest) with h | h
  · exact h
  · exact absurd (List.cons.inj h).1 hc

/-- **The literals that are read** are those that denote a date and time, and they are read as its moment. -/
theorem ofLiteral?_eq_some_iff {literal : String} {t : Moment} :
    ofLiteral? literal = some t ↔ ∃ r, Denotes literal r ∧ r.moment = t := by
  simp only [ofLiteral?, read_eq_some_iff]
  constructor
  · rintro ⟨r, hform, hr, rfl⟩
    refine ⟨r, ⟨hr, _, hform, ?_⟩, rfl⟩
    exact (unwrapped_cases literal.toList).imp_left Eq.symm
  · rintro ⟨r, ⟨hr, cs, hform, hcs | hcs⟩, rfl⟩
    · exact ⟨r, by rwa [hcs, hform.unwrapped_eq], hr, rfl⟩
    · exact ⟨r, by rwa [hcs, unwrapped_wrapped], hr, rfl⟩

end PathQuery.Time
