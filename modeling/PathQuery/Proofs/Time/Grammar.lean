import PathQuery.Proofs.Time.Instant

/-!
# Proofs/Time/Grammar — the literals that are read as points in time

`Form` is the grammar of the three forms of literals, and `Denotes` lets each of them stand inside `datetime'…'`.
A reader of a part of a literal takes the words of a language and no others (`Reads`): numbers of two or four
digits, short numbers after blanks, and three of them with a mark in between.
-/

namespace PathQuery.Time

open Numeral (Digits NoDigit natOfDigits noDigit_cons splitDigits digits_pair digits_singleton)
open Text (isBlank trimStart)

/-! ## The grammar -/

/-- Three parts with a mark between them. -/
def Parts (sep : Char) (P Q R : List Char → Prop) (cs : List Char) : Prop :=
  ∃ p q r, P p ∧ Q q ∧ R r ∧ cs = p ++ sep :: (q ++ sep :: r)

/-- A word after blanks. -/
def Indented (P : List Char → Prop) (cs : List Char) : Prop :=
  ∃ blanks ds, (∀ c ∈ blanks, isBlank c = true) ∧ P ds ∧ cs = blanks ++ ds

theorem Indented.self {P : List Char → Prop} {cs : List Char} (h : P cs) : Indented P cs :=
  ⟨[], cs, fun _ hc => absurd hc List.not_mem_nil, h, rfl⟩

/-- One digit or two. -/
def ShortDigits (n : Nat) (ds : List Char) : Prop := Digits 1 n ds ∨ Digits 2 n ds

/-- A year of up to four digits, or a sign and a year of any number of digits. -/
inductive YearDigits : Int → List Char → Prop
  | plain {width n : Nat} {ds : List Char} : 0 < width → width ≤ 4 → Digits width n ds → YearDigits n ds
  | plus {width n : Nat} {ds : List Char} : 0 < width → Digits width n ds → YearDigits n ('+' :: ds)
  | minus {width n : Nat} {ds : List Char} : 0 < width → Digits width n ds → YearDigits (-n) ('-' :: ds)

/-- A date of numbers of fixed widths. -/
abbrev FixedDate (year month day : Nat) : List Char → Prop :=
  Parts '-' (Digits 4 year) (Digits 2 month) (Digits 2 day)

/-- A time of numbers of fixed widths. -/
abbrev FixedTime (hour minute second : Nat) : List Char → Prop :=
  Parts ':' (Digits 2 hour) (Digits 2 minute) (Digits 2 second)

/-- A date in which every number may be short and indented. -/
abbrev ShortDate (year : Int) (month day : Nat) : List Char → Prop :=
  Parts '-' (Indented (YearDigits year)) (Indented (ShortDigits month)) (Indented (ShortDigits day))

/-- A time in which every number may be short and indented. -/
abbrev ShortTime (hour minute second : Nat) : List Char → Prop :=
  Parts ':' (Indented (ShortDigits hour)) (Indented (ShortDigits minute)) (Indented (ShortDigits second))

/-- The digits of a fraction of a second, and how they are written. -/
inductive Fraction : List Char → List Char → Prop
  | none : Fraction [] []
  | some {ds : List Char} : ds ≠ [] → (∀ c ∈ ds, c.isDigit = true) → Fraction ds ('.' :: ds)

/-- An offset in minutes and how it is written.  The last sign is U+2212. -/
inductive Zone : Int → List Char → Prop
  | utc {c : Char} : c = 'Z' ∨ c = 'z' → Zone 0 [c]
  | ahead {hours minutes : Nat} {hs ms : List Char} : hours < 24 → minutes < 60 → Digits 2 hours hs →
      Digits 2 minutes ms → Zone (hours * 60 + minutes : Nat) ('+' :: (hs ++ ':' :: ms))
  | behind {hours minutes : Nat} {hs ms : List Char} {sign : Char} : sign = '-' ∨ sign = '−' → hours < 24 →
      minutes < 60 → Digits 2 hours hs → Digits 2 minutes ms →
      Zone (-(hours * 60 + minutes : Nat)) (sign :: (hs ++ ':' :: ms))

/-- A date, a time and an offset. -/
inductive Timestamp : Reading → List Char → Prop
  | mk {year month day hour minute second : Nat} {offset : Int} {sep : Char}
      {digits date time fraction zone : List Char} :
      FixedDate year month day date → sep = 'T' ∨ sep = 't' ∨ sep = ' ' →
      FixedTime hour minute second time → Fraction digits fraction → Zone offset zone →
      Timestamp ⟨⟨year, month, day⟩, hour, minute, second, digits, offset⟩
        (date ++ sep :: (time ++ (fraction ++ zone)))

/-- A date and a time, which is taken as UTC. -/
inductive DateTime : Reading → List Char → Prop
  | mk {year : Int} {month day hour minute second : Nat} {date time : List Char} :
      ShortDate year month day date → yearInRange year = true → ShortTime hour minute second time →
      DateTime ⟨⟨year, month, day⟩, hour, minute, second, [], 0⟩ (date ++ 'T' :: time)

/-- A date, which is taken as its midnight in UTC. -/
inductive Midnight : Reading → List Char → Prop
  | mk {year : Int} {month day : Nat} {date : List Char} :
      ShortDate year month day date → yearInRange year = true →
      Midnight ⟨⟨year, month, day⟩, 0, 0, 0, [], 0⟩ date

/-- The forms of literals. -/
def Form (r : Reading) (cs : List Char) : Prop := Timestamp r cs ∨ DateTime r cs ∨ Midnight r cs

/-- A literal denotes what it says if there is such a date and time. -/
def Denotes (literal : String) (r : Reading) : Prop :=
  r.Exists ∧ ∃ cs, Form r cs ∧ (literal.toList = cs ∨ literal.toList = "datetime'".toList ++ cs ++ ['\''])

variable {cs rest ds : List Char} {r : Reading} {offset : Int}

theorem Zone.natAbs_lt (h : Zone offset cs) : offset.natAbs < 1440 := by
  cases h <;> omega

theorem Form.offset_lt (h : Form r cs) : r.offset.natAbs < 1440 := by
  obtain ⟨_, _, _, _, hzone⟩ | ⟨_, _, _⟩ | ⟨_, _⟩ := h
  · exact hzone.natAbs_lt
  · exact Nat.succ_pos _
  · exact Nat.succ_pos _

theorem Form.isDigit_fraction (h : Form r cs) : ∀ c ∈ r.fraction, c.isDigit = true := by
  obtain ⟨_, _, _, _ | ⟨_, hds⟩, _⟩ | ⟨_, _, _⟩ | ⟨_, _⟩ := h
  · exact fun c hc => absurd hc List.not_mem_nil
  · exact hds
  · exact fun c hc => absurd hc List.not_mem_nil
  · exact fun c hc => absurd hc List.not_mem_nil

/-! ## Readers of parts -/

/-- A reader takes words of a language from the front of a text, and any of them if no digit follows. -/
structure Reads {α : Type} (read : List Char → Option (α × List Char)) (Word : α → List Char → Prop) :
    Prop where
  word : ∀ {a cs rest}, read cs = some (a, rest) → ∃ ds, Word a ds ∧ cs = ds ++ rest
  read : ∀ {a ds rest}, Word a ds → NoDigit rest → read (ds ++ rest) = some (a, rest)

theorem mark_eq_some_iff {c : Char} : mark c cs = some rest ↔ cs = c :: rest := by
  match cs with
  | [] => simp [mark]
  | d :: ds => simp [mark, eq_comm]

/-- Three readers, with a mark read between them. -/
def triple {α β γ : Type} (sep : Char) (first : List Char → Option (α × List Char))
    (second : List Char → Option (β × List Char)) (third : List Char → Option (γ × List Char))
    (cs : List Char) : Option ((α × β × γ) × List Char) := do
  let (a, cs) ← first cs
  let (b, cs) ← second (← mark sep cs)
  let (c, cs) ← third (← mark sep cs)
  return ((a, b, c), cs)

theorem Reads.triple {α β γ : Type} {first : List Char → Option (α × List Char)}
    {second : List Char → Option (β × List Char)} {third : List Char → Option (γ × List Char)}
    {P : α → List Char → Prop} {Q : β → List Char → Prop} {R : γ → List Char → Prop} {sep : Char}
    (hfirst : Reads first P) (hsecond : Reads second Q) (hthird : Reads third R) (hsep : sep.isDigit = false) :
    Reads (triple sep first second third) fun x => Parts sep (P x.1) (Q x.2.1) (R x.2.2) where
  word {x cs rest} h := by
    obtain ⟨⟨a, cs₁⟩, ha, h⟩ := Option.bind_eq_some_iff.mp h
    obtain ⟨cs₂, hm, h⟩ := Option.bind_eq_some_iff.mp h
    obtain ⟨⟨b, cs₃⟩, hb, h⟩ := Option.bind_eq_some_iff.mp h
    obtain ⟨cs₄, hm', h⟩ := Option.bind_eq_some_iff.mp h
    obtain ⟨⟨c, cs₅⟩, hc, h⟩ := Option.bind_eq_some_iff.mp h
    cases h
    obtain ⟨p, hp, rfl⟩ := hfirst.word ha
    obtain ⟨q, hq, rfl⟩ := hsecond.word hb
    obtain ⟨r, hr, rfl⟩ := hthird.word hc
    rw [mark_eq_some_iff] at hm hm'
    subst hm hm'
    exact ⟨_, ⟨p, q, r, hp, hq, hr, rfl⟩, by simp⟩
  read {x ds rest} h hrest := by
    obtain ⟨p, q, r, hp, hq, hr, rfl⟩ := h
    simp only [Time.triple, List.append_assoc, List.cons_append, hfirst.read hp (noDigit_cons hsep _),
      hsecond.read hq (noDigit_cons hsep _), hthird.read hr hrest, mark, if_pos, Option.bind_eq_bind,
      Option.bind_some]
    rfl

/-! ## Numbers -/

theorem reads_twoDigits : Reads twoDigits (Digits 2) where
  word {n cs rest} h := by
    match cs with
    | [] | [_] => cases h
    | a :: b :: cs =>
      simp only [twoDigits, Bool.and_eq_true, Option.ite_none_right_eq_some, Option.some.injEq, Prod.mk.injEq] at h
      obtain ⟨⟨ha, hb⟩, rfl, rfl⟩ := h
      exact ⟨_, digits_pair ha hb, rfl⟩
  read {n ds rest} h _ := by
    obtain ⟨a, b, ha, hb, rfl, rfl⟩ := h.exists_pair
    simp [twoDigits, ha, hb]

theorem reads_fourDigits : Reads fourDigits (Digits 4) where
  word {n cs rest} h := by
    match cs with
    | [] | [_] | [_, _] | [_, _, _] => cases h
    | a :: b :: c :: d :: cs =>
      simp only [fourDigits, Option.ite_none_right_eq_some, Option.some.injEq, Prod.mk.injEq] at h
      obtain ⟨hall, rfl, rfl⟩ := h
      exact ⟨_, ⟨rfl, List.all_eq_true.mp hall, rfl⟩, rfl⟩
  read {n ds rest} h _ := by
    obtain ⟨hlen, hds, rfl⟩ := h
    match ds with
    | [a, b, c, d] => exact if_pos (List.all_eq_true.mpr hds)

theorem isBlank_of_isDigit {c : Char} (h : c.isDigit = true) : isBlank c = false := by
  obtain ⟨hlow, hhigh⟩ := Char.isDigit_iff_toNat.mp h
  have hzero : '0'.toNat = 48 := rfl
  have hnine : '9'.toNat = 57 := rfl
  simp [isBlank]
  omega

/-- A word that does not begin with a blank is what is left of its indentation. -/
theorem trimStart_indented {blanks : List Char} {c : Char} (h : ∀ c ∈ blanks, isBlank c = true)
    (hc : isBlank c = false) (cs : List Char) : trimStart (blanks ++ c :: cs) = c :: cs := by
  rw [trimStart, List.dropWhile_append_of_pos h, List.dropWhile_cons_of_neg (by simp [hc])]

/-- A reader of words after blanks takes indented words, if no word begins with a blank. -/
theorem Reads.indented {α : Type} {read : List Char → Option (α × List Char)} {Word : α → List Char → Prop}
    (h : Reads read Word) (hword : ∀ {a ds}, Word a ds → ∃ c cs, ds = c :: cs ∧ isBlank c = false) :
    Reads (fun cs => read (trimStart cs)) fun a => Indented (Word a) where
  word {a cs rest} hread := by
    obtain ⟨ds, hds, hcs⟩ := h.word hread
    refine ⟨Text.leadingBlanks cs ++ ds, ⟨_, ds, fun c hc => ?_, hds, rfl⟩, ?_⟩
    · exact List.all_eq_true.mp List.all_takeWhile c hc
    · rw [List.append_assoc, ← hcs, Text.leadingBlanks_append_trimStart]
  read {a ds rest} hindented hrest := by
    obtain ⟨blanks, ds, hblanks, hds, rfl⟩ := hindented
    obtain ⟨c, cs, rfl, hc⟩ := hword hds
    rw [List.append_assoc, List.cons_append, trimStart_indented hblanks hc]
    exact h.read hds hrest

/-- Reads one digit or two. -/
def oneOrTwo : List Char → Option (Nat × List Char)
  | a :: b :: rest =>
    if a.isDigit then
      if b.isDigit then some (natOfDigits [a, b], rest) else some (natOfDigits [a], b :: rest)
    else none
  | [a] => if a.isDigit then some (natOfDigits [a], []) else none
  | [] => none

theorem reads_oneOrTwo : Reads oneOrTwo ShortDigits where
  word {n cs rest} h := by
    match cs with
    | [] => cases h
    | [a] =>
      obtain ⟨ha, h⟩ := Option.ite_none_right_eq_some.mp h
      cases h
      exact ⟨[a], .inl (digits_singleton ha), rfl⟩
    | a :: b :: cs =>
      obtain ⟨ha, h⟩ := Option.ite_none_right_eq_some.mp h
      split at h
      · rename_i hb
        cases h
        exact ⟨[a, b], .inr (digits_pair ha hb), rfl⟩
      · cases h
        exact ⟨[a], .inl (digits_singleton ha), rfl⟩
  read {n ds rest} h hrest := by
    rcases h with hds | hds
    · obtain ⟨a, ha, rfl, rfl⟩ := hds.exists_singleton
      match rest with
      | [] => simp [oneOrTwo, ha]
      | b :: rest =>
        have hb : b.isDigit = false := hrest b rfl
        simp [oneOrTwo, ha, hb]
    · obtain ⟨a, b, ha, hb, rfl, rfl⟩ := hds.exists_pair
      simp [oneOrTwo, ha, hb]

theorem reads_shortNumber : Reads shortNumber fun n => Indented (ShortDigits n) :=
  reads_oneOrTwo.indented fun h => by
    rcases h with hds | hds
    · obtain ⟨a, ha, rfl, -⟩ := hds.exists_singleton
      exact ⟨a, [], rfl, isBlank_of_isDigit ha⟩
    · obtain ⟨a, b, ha, -, rfl, -⟩ := hds.exists_pair
      exact ⟨a, [b], rfl, isBlank_of_isDigit ha⟩

/-! ## Years -/

/-- Reads at least one digit. -/
def digits? (cs : List Char) : Option (Nat × List Char) :=
  let (ds, rest) := splitDigits cs
  if ds.isEmpty then none else some (natOfDigits ds, rest)

theorem reads_digits : Reads digits? fun n ds => ∃ width, 0 < width ∧ Digits width n ds where
  word {n cs rest} h := by
    simp only [digits?, Option.ite_none_left_eq_some, Option.some.injEq, Prod.mk.injEq] at h
    obtain ⟨hne, rfl, rfl⟩ := h
    have hpos : 0 < (splitDigits cs).1.length := List.length_pos_iff.mpr (by simpa using hne)
    exact ⟨_, ⟨_, hpos, rfl, fun c => Numeral.isDigit_of_mem_splitDigits, rfl⟩,
      (Numeral.splitDigits_append cs).symm⟩
  read {n ds rest} h hrest := by
    obtain ⟨width, hpos, rfl, hds, rfl⟩ := h
    have hne : ds ≠ [] := List.length_pos_iff.mp hpos
    simp [digits?, Numeral.splitDigits_append_eq hds hrest, hne]

/-- Up to four digits are taken from the front of a text. -/
theorem takeWhile_take_append {width : Nat} (hlen : ds.length = width) (hwidth : width ≤ 4)
    (hds : ∀ c ∈ ds, c.isDigit = true) (hrest : NoDigit rest) :
    ((ds ++ rest).take 4).takeWhile Char.isDigit = ds := by
  have hnone : (rest.take (4 - ds.length)).takeWhile Char.isDigit = [] := by
    match rest, 4 - ds.length with
    | [], _ | _ :: _, 0 => simp
    | c :: rest, k + 1 => simp [hrest c rfl]
  rw [List.take_append, List.take_of_length_le (hlen.trans_le hwidth), List.takeWhile_append_of_pos hds, hnone,
    List.append_nil]

/-- Reads up to four digits. -/
def upToFour (cs : List Char) : Option (Nat × List Char) :=
  let ds := (cs.take 4).takeWhile Char.isDigit
  if ds.isEmpty then none else some (natOfDigits ds, cs.drop ds.length)

theorem reads_upToFour : Reads upToFour fun n ds => ∃ width, 0 < width ∧ width ≤ 4 ∧ Digits width n ds where
  word {n cs rest} h := by
    obtain ⟨hne, h⟩ := Option.ite_none_left_eq_some.mp h
    cases h
    have hprefix := (List.takeWhile_prefix Char.isDigit).trans (List.take_prefix 4 cs)
    have hlen : ((cs.take 4).takeWhile Char.isDigit).length ≤ 4 :=
      (List.takeWhile_prefix _).length_le.trans (List.length_take_le ..)
    refine ⟨_, ⟨_, ?_, hlen, rfl, fun c hc => ?_, rfl⟩, (List.prefix_iff_eq_append.mp hprefix).symm⟩
    · exact List.length_pos_iff.mpr (by simpa using hne)
    · exact List.all_eq_true.mp List.all_takeWhile c hc
  read {n ds rest} h hrest := by
    obtain ⟨width, hpos, hwidth, hlen, hds, rfl⟩ := h
    have hne : ds ≠ [] := List.length_pos_iff.mp (hlen.symm ▸ hpos)
    simp [upToFour, takeWhile_take_append hlen hwidth hds hrest, hne]

/-- Reads a year that begins where it is read. -/
def signedYear : List Char → Option (Int × List Char)
  | '-' :: rest => (digits? rest).map fun (n, rest) => (-(n : Int), rest)
  | '+' :: rest => (digits? rest).map fun (n, rest) => ((n : Int), rest)
  | cs => (upToFour cs).map fun (n, rest) => ((n : Int), rest)

theorem shortYear_eq (cs : List Char) : shortYear cs = signedYear (trimStart cs) := by
  rw [shortYear]
  split
  · rename_i hcs
    rw [hcs]
    rfl
  · rename_i hcs
    rw [hcs]
    rfl
  · rename_i hminus hplus
    rw [signedYear, upToFour]
    · dsimp only
      split <;> rfl
    · exact hminus
    · exact hplus

theorem reads_signedYear : Reads signedYear YearDigits where
  word {year cs rest} h := by
    rw [signedYear.eq_def] at h
    split at h
    · obtain ⟨⟨n, rest'⟩, hn, h⟩ := Option.map_eq_some_iff.mp h
      cases h
      obtain ⟨ds, ⟨width, hpos, hds⟩, rfl⟩ := reads_digits.word hn
      exact ⟨_, .minus hpos hds, rfl⟩
    · obtain ⟨⟨n, rest'⟩, hn, h⟩ := Option.map_eq_some_iff.mp h
      cases h
      obtain ⟨ds, ⟨width, hpos, hds⟩, rfl⟩ := reads_digits.word hn
      exact ⟨_, .plus hpos hds, rfl⟩
    · obtain ⟨⟨n, rest'⟩, hn, h⟩ := Option.map_eq_some_iff.mp h
      cases h
      obtain ⟨ds, ⟨width, hpos, hwidth, hds⟩, rfl⟩ := reads_upToFour.word hn
      exact ⟨_, .plain hpos hwidth hds, rfl⟩
  read {year ds rest} h hrest := by
    cases h with
    | plain hpos hwidth hds =>
      have hread := reads_upToFour.read ⟨_, hpos, hwidth, hds⟩ hrest
      obtain ⟨c, cs, rfl, hc⟩ := hds.exists_cons hpos
      rw [signedYear, hread]
      · rfl
      -- a digit is no sign
      · exact fun _ hsign => absurd ((List.cons.inj hsign).1 ▸ hc) (by decide)
      · exact fun _ hsign => absurd ((List.cons.inj hsign).1 ▸ hc) (by decide)
    | plus hpos hds =>
      simp only [signedYear, List.cons_append, reads_digits.read ⟨_, hpos, hds⟩ hrest, Option.map_some]
    | minus hpos hds =>
      simp only [signedYear, List.cons_append, reads_digits.read ⟨_, hpos, hds⟩ hrest, Option.map_some]

theorem reads_shortYear : Reads shortYear fun year => Indented (YearDigits year) := by
  rw [show shortYear = fun cs => signedYear (trimStart cs) from funext shortYear_eq]
  refine reads_signedYear.indented fun h => ?_
  cases h with
  | plain hpos hwidth hds =>
    obtain ⟨c, cs, rfl, hc⟩ := hds.exists_cons hpos
    exact ⟨c, cs, rfl, isBlank_of_isDigit hc⟩
  | plus _ _ => exact ⟨_, _, rfl, rfl⟩
  | minus _ _ => exact ⟨_, _, rfl, rfl⟩

end PathQuery.Time
