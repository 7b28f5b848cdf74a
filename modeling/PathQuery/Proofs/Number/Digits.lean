import Mathlib.Algebra.Order.Ring.Nat
import Mathlib.Data.String.Basic
import Mathlib.Order.Compare
import Mathlib.Tactic.Common
import PathQuery.Number.Numeral

/-!
# Proofs/Number/Digits — digits of a fixed width, and the order of texts that begin with them

Of two numbers that are written with the same count of digits, the lesser comes first in the order of texts
(`Digits.compare_append`).
-/

namespace PathQuery

/-! ## Orders by parts -/

/-- An order decided by a first component and, where this is the same, by the rest. -/
theorem compare_eq_then {α β : Type*} [LinearOrder α] [LinearOrder β] {a b : α} {x y : β} {rest : Ordering}
    (hlt : x < y → a < b) (hgt : y < x → b < a) (heq : x = y → compare a b = rest) :
    compare a b = (compare x y).then rest := by
  rcases lt_trichotomy x y with h | h | h
  · rw [compare_lt_iff_lt.mpr h, compare_lt_iff_lt.mpr (hlt h)]
    rfl
  · rw [compare_eq_iff_eq.mpr h, heq h]
    rfl
  · rw [compare_gt_iff_gt.mpr h, compare_gt_iff_gt.mpr (hgt h)]
    rfl

theorem compare_map {α β : Type*} [LinearOrder α] [LinearOrder β] {f : α → β} (hf : StrictMono f) (a b : α) :
    compare (f a) (f b) = compare a b :=
  (compare_eq_then (@hf a b) (@hf b a) fun h => compare_eq_iff_eq.mpr (congrArg f h)).trans Ordering.then_eq

/-- Texts are compared by their characters. -/
theorem compareOfLessAndEq_cons (c d : Char) (cs ds : List Char) :
    compareOfLessAndEq (c :: cs) (d :: ds) = (compare c d).then (compareOfLessAndEq cs ds) := by
  simp only [compareOfLessAndEq, List.cons_lt_cons_iff, List.cons.injEq]
  rcases lt_trichotomy c d with h | rfl | h
  · simp [compare_lt_iff_lt.mpr h, h]
  · simp
  · simp [compare_gt_iff_gt.mpr h, h.not_gt, h.ne']

theorem compareOfLessAndEq_cons_self (c : Char) (cs ds : List Char) :
    compareOfLessAndEq (c :: cs) (c :: ds) = compareOfLessAndEq cs ds := by
  rw [compareOfLessAndEq_cons, compare_eq_iff_eq.mpr rfl]
  rfl

theorem compare_toList (s t : String) : String.compare s t = compareOfLessAndEq s.toList t.toList := by
  simp only [String.compare, compareOfLessAndEq, String.lt_iff_toList_lt, String.toList_inj]

/-! ## Digits -/

namespace Numeral

variable {c d : Char} {ds es : List Char}

theorem natOfDigits_cons (c : Char) (ds : List Char) :
    natOfDigits (c :: ds) = 10 ^ ds.length * digitValue c + natOfDigits ds :=
  (Nat.ofDigitChars_eq_ofDigitChars_zero (l := ds)).trans (congrArg (10 ^ ds.length * · + natOfDigits ds) (by simp))

theorem digitValue_lt (h : c.isDigit = true) : digitValue c < 10 := by
  obtain ⟨hlow, hhigh⟩ := Char.isDigit_iff_toNat.mp h
  have hzero : '0'.toNat = 48 := rfl
  have hnine : '9'.toNat = 57 := rfl
  rw [digitValue]
  omega

/-- Digits are in the order of their values. -/
theorem digitValue_lt_of_lt (hc : c.isDigit = true) (h : c < d) : digitValue c < digitValue d := by
  have hlow := (Char.isDigit_iff_toNat.mp hc).1
  have hlt : c.toNat < d.toNat := h
  rw [digitValue, digitValue]
  omega

theorem natOfDigits_lt (h : ∀ c ∈ ds, c.isDigit = true) : natOfDigits ds < 10 ^ ds.length := by
  induction ds with
  | nil => exact Nat.one_pos
  | cons c ds ih =>
    obtain ⟨hc, hds⟩ := List.forall_mem_cons.mp h
    have hone : digitValue c + 1 ≤ 10 := digitValue_lt hc
    rw [natOfDigits_cons, List.length_cons, Nat.pow_succ]
    calc 10 ^ ds.length * digitValue c + natOfDigits ds
        < 10 ^ ds.length * digitValue c + 10 ^ ds.length := Nat.add_lt_add_left (ih hds) _
      _ = 10 ^ ds.length * (digitValue c + 1) := rfl
      _ ≤ 10 ^ ds.length * 10 := Nat.mul_le_mul_left _ hone

/-- A greater first digit makes a greater number, -/
theorem natOfDigits_cons_lt (hc : c.isDigit = true) (hds : ∀ c ∈ ds, c.isDigit = true)
    (hlen : ds.length = es.length) (h : c < d) : natOfDigits (c :: ds) < natOfDigits (d :: es) := by
  have hone : digitValue c + 1 ≤ digitValue d := digitValue_lt_of_lt hc h
  rw [natOfDigits_cons, natOfDigits_cons, ← hlen]
  calc 10 ^ ds.length * digitValue c + natOfDigits ds
      < 10 ^ ds.length * (digitValue c + 1) := Nat.add_lt_add_left (natOfDigits_lt hds) _
    _ ≤ 10 ^ ds.length * digitValue d := Nat.mul_le_mul_left _ hone
    _ ≤ 10 ^ ds.length * digitValue d + natOfDigits es := Nat.le_add_right ..

/-- so numbers of one width are in the order of their texts. -/
theorem compare_natOfDigits_cons (hc : c.isDigit = true) (hd : d.isDigit = true)
    (hds : ∀ c ∈ ds, c.isDigit = true) (hes : ∀ c ∈ es, c.isDigit = true) (hlen : ds.length = es.length) :
    compare (natOfDigits (c :: ds)) (natOfDigits (d :: es)) =
      (compare c d).then (compare (natOfDigits ds) (natOfDigits es)) := by
  refine compare_eq_then (natOfDigits_cons_lt hc hds hlen) (natOfDigits_cons_lt hd hes hlen.symm) fun h => ?_
  rw [natOfDigits_cons, natOfDigits_cons, h, hlen]
  exact compare_map (fun _ _ => Nat.add_lt_add_left (k := 10 ^ es.length * digitValue d)) _ _

/-- A text of digits of a width, and the number that they denote. -/
structure Digits (width value : Nat) (ds : List Char) : Prop where
  length_eq : ds.length = width
  isDigit : ∀ c ∈ ds, c.isDigit = true
  value_eq : natOfDigits ds = value

theorem digits_singleton (h : c.isDigit = true) : Digits 1 (natOfDigits [c]) [c] :=
  ⟨rfl, by simpa using h, rfl⟩

theorem digits_pair (hc : c.isDigit = true) (hd : d.isDigit = true) :
    Digits 2 (natOfDigits [c, d]) [c, d] :=
  ⟨rfl, by simp [hc, hd], rfl⟩

theorem Digits.exists_cons {width n : Nat} (h : Digits width n ds) (hpos : 0 < width) :
    ∃ c rest, ds = c :: rest ∧ c.isDigit = true := by
  obtain ⟨rfl, hds, -⟩ := h
  obtain ⟨c, rest, rfl⟩ := List.exists_cons_of_length_pos hpos
  exact ⟨c, rest, rfl, hds c (.head _)⟩

theorem Digits.exists_singleton {n : Nat} (h : Digits 1 n ds) :
    ∃ c, c.isDigit = true ∧ ds = [c] ∧ natOfDigits [c] = n := by
  obtain ⟨hlen, hds, rfl⟩ := h
  obtain ⟨c, rfl⟩ := List.length_eq_one_iff.mp hlen
  exact ⟨c, hds c (.head _), rfl, rfl⟩

theorem Digits.exists_pair {n : Nat} (h : Digits 2 n ds) :
    ∃ c d, c.isDigit = true ∧ d.isDigit = true ∧ ds = [c, d] ∧ natOfDigits [c, d] = n := by
  obtain ⟨hlen, hds, rfl⟩ := h
  obtain ⟨c, d, rfl⟩ := List.length_eq_two.mp hlen
  exact ⟨c, d, hds c (.head _), hds d (.tail _ (.head _)), rfl, rfl⟩

/-- No digit follows. -/
def NoDigit (rest : List Char) : Prop := ∀ c ∈ rest.head?, c.isDigit = false

theorem noDigit_nil : NoDigit [] := fun _ h => nomatch h

theorem noDigit_cons (h : c.isDigit = false) (rest : List Char) : NoDigit (c :: rest) := by
  rintro _ ⟨⟩
  exact h

/-- Digits are split off where no digit follows. -/
theorem splitDigits_append_eq {rest : List Char} (hds : ∀ c ∈ ds, c.isDigit = true) (hrest : NoDigit rest) :
    splitDigits (ds ++ rest) = (ds, rest) := by
  have hnone : splitDigits rest = ([], rest) := by
    match rest with
    | [] => rfl
    | c :: rest => simp [splitDigits, hrest c rfl]
  rw [splitDigits, List.takeWhile_append_of_pos hds, List.dropWhile_append_of_pos hds]
  rw [splitDigits, Prod.mk.injEq] at hnone
  rw [hnone.1, hnone.2, List.append_nil]

theorem isDigit_of_mem_splitDigits {cs : List Char} (h : c ∈ (splitDigits cs).1) : c.isDigit = true :=
  List.all_eq_true.mp List.all_takeWhile c h

/-- **Texts that begin with numbers of one width** are compared by the numbers first. -/
theorem Digits.compare_append {width m n : Nat} (h : Digits width m ds) (h' : Digits width n es)
    (cs cs' : List Char) :
    compareOfLessAndEq (ds ++ cs) (es ++ cs') = (compare m n).then (compareOfLessAndEq cs cs') := by
  obtain ⟨hlen, hds, rfl⟩ := h
  obtain ⟨hlen', hes, rfl⟩ := h'
  replace hlen := hlen.trans hlen'.symm
  clear hlen'
  induction ds generalizing es with
  | nil =>
    rw [List.eq_nil_of_length_eq_zero hlen.symm, compare_eq_iff_eq.mpr rfl]
    rfl
  | cons c ds ih =>
    match es with
    | d :: es =>
      obtain ⟨hc, hds⟩ := List.forall_mem_cons.mp hds
      obtain ⟨hd, hes⟩ := List.forall_mem_cons.mp hes
      have hlen := Nat.succ.inj hlen
      rw [List.cons_append, List.cons_append, compareOfLessAndEq_cons, ih hds hes hlen,
        compare_natOfDigits_cons hc hd hds hes hlen, Ordering.then_assoc]

end Numeral

end PathQuery
