import PathQuery.Proofs.Time.Literal
import PathQuery.Store.Literal
import PathQuery.Store.Match

/-!
# Proofs/Time/Order — written dates are in the order of time

A moment of the years 0 to 9999 is written with all numbers in fixed widths and the greatest unit first, so texts
are compared as the instants that they denote (`Normal.compare_eq`).  The written form is a literal of the same moment,
so it is written as itself.
-/

namespace PathQuery.Time

open Numeral (Digits natOfDigits)

variable {cs ds : List Char} {r q : Reading} {t : Moment}

/-! ## The written form -/

/-- `YYYY-MM-DDTHH:MM:SSZ`. -/
inductive Normal : Reading → List Char → Prop
  | mk {year month day hour minute second : Nat} {date time : List Char} :
      FixedDate year month day date → FixedTime hour minute second time →
      Normal ⟨⟨year, month, day⟩, hour, minute, second, [], 0⟩ (date ++ 'T' :: (time ++ ['Z']))

theorem Normal.timestamp (h : Normal r cs) : Timestamp r cs := by
  obtain ⟨hds, hts⟩ := h
  exact .mk hds (.inl rfl) hts .none (.utc (.inl rfl))

theorem Normal.offset_lt (h : Normal r cs) : r.offset.natAbs < 1440 := Form.offset_lt (.inl h.timestamp)

theorem Normal.instant_moment (h : Normal r cs) (hr : r.Exists) : r.moment.instant = r.instant := by
  obtain ⟨_, _⟩ := h
  rw [hr.moment_eq rfl]
  simp [Moment.instant, Reading.instant, natOfDigits]

theorem digits_padded {width n : Nat} (hwidth : 0 < width) (h : n < 10 ^ width) :
    Digits width n (padded width n) where
  length_eq := by
    have hle := (Nat.length_toDigits_le_iff (by decide) hwidth).mpr h
    simp only [padded, List.length_append, List.length_replicate]
    omega
  isDigit c hc := by
    rcases List.mem_append.mp hc with hc | hc
    · rw [List.eq_of_mem_replicate hc]
      rfl
    · exact Nat.isDigit_of_mem_toDigits (by decide) le_rfl hc
  value_eq := by
    have hzeros : Nat.ofDigitChars 10 (List.replicate (width - (Nat.toDigits 10 n).length) '0') 0 = 0 := by
      rw [Nat.ofDigitChars_replicate_zero, Nat.mul_zero]
    calc natOfDigits (padded width n)
        = Nat.ofDigitChars 10 (List.replicate (width - (Nat.toDigits 10 n).length) '0' ++ Nat.toDigits 10 n) 0 := rfl
      _ = Nat.ofDigitChars 10 (Nat.toDigits 10 n) 0 := by rw [Nat.ofDigitChars_append, hzeros]
      _ = n := Nat.ofDigitChars_ten_toDigits

/-- What the written form of a moment says. -/
def Moment.reading (t : Moment) : Reading := ⟨t.date, t.minute / 60, t.minute % 60, t.second, [], 0⟩

theorem Moment.Exists.reading (h : t.Exists) : t.reading.Exists :=
  ⟨h.isValid_date, Nat.div_lt_of_lt_mul h.minute_lt, Nat.mod_lt _ (by decide), h.second_le⟩

theorem Moment.Exists.moment_reading (h : t.Exists) : t.reading.moment = t := by
  rw [h.reading.moment_eq rfl]
  simp only [Moment.reading, Nat.div_add_mod']

/-- **A moment of four-digit years** is written in the normal form. -/
theorem Moment.Exists.normal_toText (h : t.Exists) (hyear : t.instant.HasFourDigitYear) :
    Normal t.reading t.toText.toList := by
  obtain ⟨hfrom, hto⟩ := (hasFourDigitYear_iff h).mp hyear
  obtain ⟨⟨-, hmonth⟩, -, hday⟩ := Date.isValid_iff.mp h.isValid_date
  have hminute := h.minute_lt
  have hsecond := h.second_le
  have hlength := Date.monthLength_le t.date.year t.date.month
  obtain ⟨⟨year, month, day⟩, minute, second⟩ := t
  obtain ⟨year, rfl⟩ := Int.eq_ofNat_of_zero_le hfrom
  dsimp only at hto hmonth hday hlength hminute hsecond
  have hyear : yearText (year : Int) = padded 4 year := if_pos ⟨hfrom, by omega⟩
  have hdate : FixedDate year month day (padded 4 year ++ '-' :: (padded 2 month ++ '-' :: padded 2 day)) :=
    ⟨_, _, _, digits_padded (by decide) (by omega), digits_padded (by decide) (by omega),
      digits_padded (by decide) (by omega), rfl⟩
  have htime : FixedTime (minute / 60) (minute % 60) second
      (padded 2 (minute / 60) ++ ':' :: (padded 2 (minute % 60) ++ ':' :: padded 2 second)) :=
    ⟨_, _, _, digits_padded (by decide) (by omega), digits_padded (by decide) (by omega),
      digits_padded (by decide) (by omega), rfl⟩
  have hnormal := Normal.mk hdate htime
  simp only [List.append_assoc, List.cons_append] at hnormal
  simpa only [Moment.reading, Moment.toText, String.toList_ofList, hyear, List.append_assoc,
    List.cons_append] using hnormal

/-- A text in the normal form is read as the moment that it is the written form of. -/
theorem Moment.Exists.ofLiteral?_toText (h : t.Exists) (hyear : t.instant.HasFourDigitYear) :
    ofLiteral? t.toText = some t :=
  ofLiteral?_eq_some_iff.mpr
    ⟨t.reading, ⟨h.reading, _, .inl (h.normal_toText hyear).timestamp, .inl rfl⟩, h.moment_reading⟩

/-! ## The order of texts -/

theorem Parts.compare_append {sep : Char} {i j k x y z x' y' z' : Nat}
    (h : Parts sep (Digits i x) (Digits j y) (Digits k z) cs)
    (h' : Parts sep (Digits i x') (Digits j y') (Digits k z') ds) (rest rest' : List Char) :
    compareOfLessAndEq (cs ++ rest) (ds ++ rest') =
      ((compare x x').then ((compare y y').then (compare z z'))).then (compareOfLessAndEq rest rest') := by
  obtain ⟨_, _, _, hx, hy, hz, rfl⟩ := h
  obtain ⟨_, _, _, hx', hy', hz', rfl⟩ := h'
  simp only [List.append_assoc, List.cons_append, hx.compare_append hx', hy.compare_append hy',
    hz.compare_append hz', compareOfLessAndEq_cons_self, Ordering.then_assoc]

/-- The minute of the day is in the order of hour and minute. -/
theorem compare_minuteOfDay (hr : r.Exists) (hq : q.Exists) :
    compare (r.hour * 60 + r.minute) (q.hour * 60 + q.minute) =
      (compare r.hour q.hour).then (compare r.minute q.minute) := by
  have hminute := hr.minute_lt
  have hminute' := hq.minute_lt
  refine compare_eq_then (by omega) (by omega) fun hhour => ?_
  rw [hhour]
  exact compare_map (fun _ _ => Nat.add_lt_add_left (k := q.hour * 60)) _ _

/-- **Texts in the normal form are in the order of time.** -/
theorem Normal.compare_eq (h : Normal r cs) (h' : Normal q ds) (hr : r.Exists) (hq : q.Exists) :
    compareOfLessAndEq cs ds = r.instant.compare q.instant := by
  have hend : compareOfLessAndEq ['Z'] ['Z'] = .eq := rfl
  have hminute := compare_minuteOfDay hr hq
  rw [← h.instant_moment hr, ← h'.instant_moment hq,
    Moment.compare_instant (hr.moment h.offset_lt) (hq.moment h'.offset_lt)]
  obtain ⟨hds, hts⟩ := h
  obtain ⟨hds', hts'⟩ := h'
  have hyear (y y' : Nat) : compare (y : Int) (y' : Int) = compare y y' :=
    compare_map (fun _ _ => Int.ofNat_lt.mpr) y y'
  rw [hr.moment_eq rfl, hq.moment_eq rfl, hds.compare_append hds', compareOfLessAndEq_cons_self,
    hts.compare_append hts', hend, Ordering.then_eq, hminute, hyear]
  simp only [Ordering.then_assoc]

/-! ## The main statement -/

/-- Whether a text is the written form of an instant. -/
def Written (i : Instant) (s : String) : Prop := ∃ r : Reading, r.Exists ∧ Normal r s.toList ∧ r.instant = i

theorem Written.compare_eq {i j : Instant} {s t : String} (h : Written i s) (h' : Written j t) :
    String.compare s t = i.compare j := by
  obtain ⟨r, hr, hnormal, rfl⟩ := h
  obtain ⟨q, hq, hnormal', rfl⟩ := h'
  exact (compare_toList s t).trans (hnormal.compare_eq hnormal' hr hq)

theorem Denotes.instant_moment {literal : String} (h : Denotes literal r) :
    r.moment.Exists ∧ r.moment.instant = r.instant.truncated := by
  obtain ⟨hr, cs, hform, -⟩ := h
  exact ⟨hr.moment hform.offset_lt, Reading.instant_moment hr hform.offset_lt hform.isDigit_fraction⟩

/-- A literal that is read denotes an instant of the year of its moment. -/
theorem exists_denotes (literal : String) (h : ofLiteral? literal = some t)
    (hyear : t.instant.HasFourDigitYear) : ∃ r, Denotes literal r ∧ r.instant.HasFourDigitYear := by
  obtain ⟨r, hr, rfl⟩ := ofLiteral?_eq_some_iff.mp h
  exact ⟨r, hr, (hr.instant_moment.2 ▸ hyear : r.instant.truncated.HasFourDigitYear)⟩

/-- A literal of four-digit years has the written form of its instant as its value, and so has this form. -/
theorem Denotes.exists_written {literal : String} (h : Denotes literal r) (hyear : r.instant.HasFourDigitYear) :
    ∃ s, DataType.dateTime.valueOf? literal = some (.string s) ∧ Written r.instant.truncated s ∧
      DataType.dateTime.valueOf? s = some (.string s) := by
  obtain ⟨ht, hinstant⟩ := h.instant_moment
  have hyear' : r.moment.instant.HasFourDigitYear := hinstant ▸ hyear
  have hnormal := ht.normal_toText hyear'
  refine ⟨r.moment.toText, ?_, ⟨_, ht.reading, hnormal, ?_⟩, ?_⟩
  · rw [DataType.valueOf?, ofLiteral?_eq_some_iff.mpr ⟨r, h, rfl⟩]
    rfl
  · rw [← hnormal.instant_moment ht.reading, ht.moment_reading, hinstant]
  · rw [DataType.valueOf?, ht.ofLiteral?_toText hyear']
    rfl

end PathQuery.Time

namespace PathQuery

open Time (Denotes Written)

/-- A comparison of two texts asks for their order. -/
theorem Condition.holds_string (op : Filter.Comparison) (s t : String) :
    (Condition.compare op (.string t)).holds (.string s) = holdsFor op (String.compare s t) := by
  have hequals : (Value.string s).equals (.string t) = (String.compare s t).isEq := by
    have hlaw := (String.instLawfulEqOrd : Std.LawfulEqCmp String.compare)
    change (s == t) = (String.compare s t).isEq
    rw [Bool.eq_iff_iff, beq_iff_eq, Ordering.isEq_iff_eq_eq]
    exact hlaw.compare_eq_iff_eq.symm
  cases op with
  | eq => exact hequals
  | ne =>
    change (!(Value.string s).equals (.string t)) = (String.compare s t).isNe
    rw [hequals]
    cases String.compare s t <;> rfl
  | _ => rfl

/-- **Dates as values.**  A literal of a point in time denotes a date and time with an offset.  If its instant lies
in the years from 0 to 9999, the value is this instant in UTC, cut to the second and written
`YYYY-MM-DDTHH:MM:SSZ`; two such values are compared, by every comparison, as their instants are in time; and each
value is a literal of itself. -/
theorem dateTime_values_in_order {a b : String} {v w : Value} (ha : DataType.dateTime.valueOf? a = some v)
    (hb : DataType.dateTime.valueOf? b = some w) :
    (∃ r, Denotes a r) ∧ (∃ q, Denotes b q) ∧
    ∀ r q, Denotes a r → Denotes b q → r.instant.HasFourDigitYear → q.instant.HasFourDigitYear →
      let i := r.instant.truncated
      let j := q.instant.truncated
      ∃ s t, v = .string s ∧ w = .string t ∧ Written i s ∧ Written j t ∧
        v.order? w = some (i.compare j) ∧
        (∀ op, (Condition.compare op w).holds v = Condition.holdsFor op (i.compare j)) ∧
        DataType.dateTime.valueOf? s = some v ∧ DataType.dateTime.valueOf? t = some w := by
  have hdenotes : ∀ {literal v}, DataType.dateTime.valueOf? literal = some v → ∃ r, Denotes literal r := by
    intro literal v h
    obtain ⟨t, ht, -⟩ := Option.map_eq_some_iff.mp h
    obtain ⟨r, hr, -⟩ := Time.ofLiteral?_eq_some_iff.mp ht
    exact ⟨r, hr⟩
  refine ⟨hdenotes ha, hdenotes hb, fun r q hr hq hyear hyear' => ?_⟩
  obtain ⟨s, hs, hwritten, hagain⟩ := hr.exists_written hyear
  obtain ⟨t, ht, hwritten', hagain'⟩ := hq.exists_written hyear'
  cases ha.symm.trans hs
  cases hb.symm.trans ht
  have horder := hwritten.compare_eq hwritten'
  refine ⟨s, t, rfl, rfl, hwritten, hwritten', congrArg some horder, fun op => ?_, hagain, hagain'⟩
  rw [Condition.holds_string, horder]

/-- Half past eleven on New Year's Eve, an hour behind UTC, is in the next year, and after its beginning. -/
theorem dateTime_values_in_order_newYear :
    ∃ r q, Denotes "2015-12-31T23:30:00.75-01:00" r ∧ Denotes "datetime'2016-1-1'" q ∧
      Written r.instant.truncated "2016-01-01T00:30:00Z" ∧ Written q.instant.truncated "2016-01-01T00:00:00Z" ∧
      r.instant.truncated.compare q.instant.truncated = .gt := by
  obtain ⟨r, hr, hyear⟩ := Time.exists_denotes "2015-12-31T23:30:00.75-01:00"
    (t := ⟨⟨2016, 1, 1⟩, 30, 0⟩) rfl ⟨by decide, by decide⟩
  obtain ⟨q, hq, hyear'⟩ := Time.exists_denotes "datetime'2016-1-1'"
    (t := ⟨⟨2016, 1, 1⟩, 0, 0⟩) rfl ⟨by decide, by decide⟩
  have ha : DataType.dateTime.valueOf? "2015-12-31T23:30:00.75-01:00" = some (.string "2016-01-01T00:30:00Z") := rfl
  have hb : DataType.dateTime.valueOf? "datetime'2016-1-1'" = some (.string "2016-01-01T00:00:00Z") := rfl
  obtain ⟨-, -, h⟩ := dateTime_values_in_order ha hb
  obtain ⟨s, t, hv, hw, hs, ht, horder, -⟩ := h r q hr hq hyear hyear'
  cases hv
  cases hw
  exact ⟨r, q, hr, hq, hs, ht, Option.some.inj (horder.symm.trans (by decide))⟩

end PathQuery
