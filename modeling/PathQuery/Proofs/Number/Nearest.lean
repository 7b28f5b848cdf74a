import Mathlib.Algebra.Ring.Nat
import Mathlib.Data.Int.Order.Basic
import PathQuery.Number
import PathQuery.Proofs.Number.Digits

/-!
# Proofs/Number/Nearest — the double nearest to an integer

An integer of up to 53 bits is a double.  One of more bits is rounded to a multiple of the power of two that
leaves it 53 bits (`nearestNat`), and `Binary64.ofInt` is the double of this value (`signedNumerator_ofInt`).
Rounding keeps the order of integers (`nearestInt_mono`), though it can make two of them one.
-/

namespace PathQuery

/-! ## Rounding a quotient -/

theorem roundHalfEven_mono {m n : Nat} (h : m ≤ n) (den : Nat) :
    roundHalfEven m den ≤ roundHalfEven n den := by
  have hfloor : m / den ≤ n / den := Nat.div_le_div_right h
  rcases Nat.lt_or_eq_of_le hfloor with hlt | heq
  · have h₁ := roundHalfEven_le_floor_succ m den
    have h₂ := floor_le_roundHalfEven n den
    omega
  · have hrest : m % den ≤ n % den := by
      have h₁ := Nat.div_add_mod m den
      have h₂ := Nat.div_add_mod n den
      rw [heq] at h₁
      omega
    simp only [roundHalfEven, heq]
    split <;> split <;> omega

/-- A multiple of the denominator is its own rounding. -/
theorem roundHalfEven_mul (n : Nat) {den : Nat} (h : 0 < den) : roundHalfEven (n * den) den = n := by
  simp only [roundHalfEven, Nat.mul_div_cancel n h, Nat.mul_mod_left]
  split <;> omega

/-! ## Rounding an integer -/

/-- The power of two of which a number keeps at most 53 bits. -/
def unitOf (n : Nat) : Nat := 2 ^ (n.log2 - 52)

/-- The multiple of its unit that a number is rounded to. -/
def nearestNat (n : Nat) : Nat := roundHalfEven n (unitOf n) * unitOf n

theorem unitOf_pos (n : Nat) : 0 < unitOf n := Nat.two_pow_pos _

/-- Powers of two below and above a number are multiples of its unit, so they bound its rounding. -/
theorem two_pow_log2_le_nearestNat {n : Nat} (h : n ≠ 0) : 2 ^ n.log2 ≤ nearestNat n := by
  have hsplit : 2 ^ (n.log2 - (n.log2 - 52)) * unitOf n = 2 ^ n.log2 := by
    rw [unitOf, ← Nat.pow_add, Nat.sub_add_cancel (Nat.sub_le _ _)]
  have hle : 2 ^ (n.log2 - (n.log2 - 52)) * unitOf n ≤ n := hsplit ▸ Nat.log2_self_le h
  rw [← hsplit, nearestNat]
  refine Nat.mul_le_mul_right _ ?_
  rw [← roundHalfEven_mul (2 ^ (n.log2 - (n.log2 - 52))) (unitOf_pos n)]
  exact roundHalfEven_mono hle _

theorem nearestNat_le_two_pow_succ (n : Nat) : nearestNat n ≤ 2 ^ (n.log2 + 1) := by
  have hsplit : 2 ^ (n.log2 + 1 - (n.log2 - 52)) * unitOf n = 2 ^ (n.log2 + 1) := by
    rw [unitOf, ← Nat.pow_add, Nat.sub_add_cancel (by omega)]
  have hle : n ≤ 2 ^ (n.log2 + 1 - (n.log2 - 52)) * unitOf n := hsplit ▸ Nat.le_of_lt Nat.lt_log2_self
  rw [← hsplit, nearestNat]
  refine Nat.mul_le_mul_right _ ?_
  rw [← roundHalfEven_mul (2 ^ (n.log2 + 1 - (n.log2 - 52))) (unitOf_pos n)]
  exact roundHalfEven_mono hle _

/-- **Rounding keeps the order.** -/
theorem nearestNat_mono {m n : Nat} (h : m ≤ n) : nearestNat m ≤ nearestNat n := by
  rcases Nat.eq_zero_or_pos m with rfl | hm
  · simp [nearestNat, roundHalfEven]
  have hlog : m.log2 ≤ n.log2 := by
    rw [Nat.le_log2 (Nat.ne_of_gt (Nat.lt_of_lt_of_le hm h))]
    exact Nat.le_trans (Nat.log2_self_le (Nat.ne_of_gt hm)) h
  rcases Nat.lt_or_eq_of_le hlog with hlt | heq
  · calc nearestNat m ≤ 2 ^ (m.log2 + 1) := nearestNat_le_two_pow_succ m
      _ ≤ 2 ^ n.log2 := Nat.pow_le_pow_right (by decide) hlt
      _ ≤ nearestNat n := two_pow_log2_le_nearestNat (by omega)
  · rw [nearestNat, nearestNat, unitOf, unitOf, heq]
    exact Nat.mul_le_mul_right _ (roundHalfEven_mono h _)

/-- The integer that is the value of the nearest double. -/
def nearestInt (i : Int) : Int := if i < 0 then -(nearestNat i.natAbs : Int) else nearestNat i.natAbs

theorem nearestInt_mono {i j : Int} (h : i ≤ j) : nearestInt i ≤ nearestInt j := by
  rw [nearestInt, nearestInt]
  split <;> split
  · have := nearestNat_mono (m := j.natAbs) (n := i.natAbs) (by omega)
    omega
  · omega
  · omega
  · have := nearestNat_mono (m := i.natAbs) (n := j.natAbs) (by omega)
    omega

namespace Binary64

/-! ## The double of an integer -/

variable {n : Nat}

/-- The unit of a number of more than 53 bits, -/
theorem powerRatio_of_le (h : 52 ≤ n.log2) : powerRatio ((n.log2 : Int) - 52) = (unitOf n, 1) := by
  have he : (n.log2 : Int) - 52 = ((n.log2 - 52 : Nat) : Int) := by omega
  rw [he, unitOf]
  rfl

/-- and of one of fewer bits, which is a fraction. -/
theorem powerRatio_of_lt (h : n.log2 < 52) :
    powerRatio ((n.log2 : Int) - 52) = (1, 2 ^ (52 - n.log2)) := by
  have he : (n.log2 : Int) - 52 = Int.negSucc (51 - n.log2) := by omega
  have hk : 51 - n.log2 + 1 = 52 - n.log2 := by omega
  rw [he, ← hk]
  rfl

/-- The next power of two is twice the one before. -/
theorem powerRatio_succ (e : Int) :
    (powerRatio (e + 1)).1 * (powerRatio e).2 = 2 * (powerRatio e).1 * (powerRatio (e + 1)).2 := by
  match e with
  | .ofNat k => exact (Nat.mul_one _).trans (Nat.pow_succ'.trans (Nat.mul_one _).symm)
  | .negSucc 0 => rfl
  | .negSucc (k + 1) => exact (Nat.one_mul _).trans Nat.pow_succ'

theorem inUnits_one (n : Nat) (e : Int) : inUnits n 1 e = (n * (powerRatio e).2, (powerRatio e).1) := by
  simp only [inUnits, Nat.one_mul]

/-- A number has at least 53 bits in these units, -/
theorem leastFull_le_inUnits (h : n ≠ 0) :
    leastFull ≤ (inUnits n 1 ((n.log2 : Int) - 52)).1 / (inUnits n 1 ((n.log2 : Int) - 52)).2 := by
  have hlow := Nat.log2_self_le h
  have hfull : leastFull = 2 ^ 52 := by decide
  rw [inUnits_one, hfull]
  rcases Nat.lt_or_ge n.log2 52 with hlt | hge
  · rw [powerRatio_of_lt hlt, Nat.div_one]
    calc 2 ^ 52 = 2 ^ n.log2 * 2 ^ (52 - n.log2) := by rw [← Nat.pow_add]; congr 1; omega
      _ ≤ n * 2 ^ (52 - n.log2) := Nat.mul_le_mul_right _ hlow
  · rw [powerRatio_of_le hge, Nat.mul_one, Nat.le_div_iff_mul_le (unitOf_pos n), unitOf,
      ← Nat.pow_add]
    exact Nat.le_trans (Nat.pow_le_pow_right (by decide) (by omega)) hlow

/-- so they are those that it is rounded in. -/
theorem unitExponent_one (h : n ≠ 0) : unitExponent n 1 = (n.log2 : Int) - 52 := by
  have hlog : ((1 : Nat).log2 : Int) = 0 := rfl
  have hfull := leastFull_le_inUnits h
  simp only [unitExponent, hlog, Int.sub_zero]
  rw [if_neg (Nat.not_lt.mpr hfull)]
  omega

/-- The count of the units, back in ones, is the rounded number. -/
theorem roundHalfEven_inUnits (n : Nat) :
    roundHalfEven (inUnits n 1 ((n.log2 : Int) - 52)).1 (inUnits n 1 ((n.log2 : Int) - 52)).2 *
        (powerRatio ((n.log2 : Int) - 52)).1 =
      nearestNat n * (powerRatio ((n.log2 : Int) - 52)).2 := by
  rw [inUnits_one, nearestNat]
  rcases Nat.lt_or_ge n.log2 52 with hlt | hge
  · have hunit : unitOf n = 1 := by rw [unitOf, Nat.sub_eq_zero_of_le (Nat.le_of_lt hlt), Nat.pow_zero]
    rw [powerRatio_of_lt hlt, hunit, roundHalfEven_one, roundHalfEven_one, Nat.mul_one, Nat.mul_one]
  · rw [powerRatio_of_le hge, Nat.mul_one, Nat.mul_one]

/-- **A number of up to 64 bits** is a double of the value that it is rounded to. -/
theorem exists_ofRatio_one (negative : Bool) (h : n ≠ 0) (hn : n.log2 < 64) :
    ∃ x, ofRatio negative n 1 = some x ∧ x.negative = negative ∧
      x.numerator = nearestNat n * x.denominator := by
  have hround := roundHalfEven_inUnits n
  simp only [ofRatio, if_neg h, unitExponent_one h]
  split
  · rename_i hm
    rw [hm] at hround
    refine ⟨⟨negative, leastFull, (n.log2 : Int) - 52 + 1⟩, if_neg (by dsimp only; omega), rfl, ?_⟩
    -- The count is `2 ^ 53`, so the unit is doubled and the count halved.
    have hsucc := powerRatio_succ ((n.log2 : Int) - 52)
    have hpos : 0 < (powerRatio ((n.log2 : Int) - 52)).2 := denominator_pos ⟨negative, 0, _⟩
    refine Nat.eq_of_mul_eq_mul_right hpos ?_
    rw [numerator, denominator]
    calc leastFull * (powerRatio ((n.log2 : Int) - 52 + 1)).1 * (powerRatio ((n.log2 : Int) - 52)).2
        = leastFull * ((powerRatio ((n.log2 : Int) - 52 + 1)).1 * (powerRatio ((n.log2 : Int) - 52)).2) :=
          Nat.mul_assoc ..
      _ = 2 * leastFull * (powerRatio ((n.log2 : Int) - 52)).1 *
          (powerRatio ((n.log2 : Int) - 52 + 1)).2 := by rw [hsucc]; ac_rfl
      _ = nearestNat n * (powerRatio ((n.log2 : Int) - 52)).2 *
          (powerRatio ((n.log2 : Int) - 52 + 1)).2 := by rw [hround]
      _ = nearestNat n * (powerRatio ((n.log2 : Int) - 52 + 1)).2 *
          (powerRatio ((n.log2 : Int) - 52)).2 := Nat.mul_right_comm ..
  · exact ⟨_, if_neg (by dsimp only; omega), rfl, hround⟩

/-- The double nearest to an integer of up to 64 bits has the value that the integer is rounded to. -/
theorem signedNumerator_ofInt {i : Int} (hi : i.natAbs < wordCount) :
    (ofInt i).signedNumerator = nearestInt i * (ofInt i).denominator := by
  by_cases h : i = 0
  · subst h
    have hzero : ∀ x : Binary64, x.significand = 0 → x.signedNumerator = 0 := fun x hx => by
      simp [signedNumerator, numerator, hx]
    have hnearest : nearestInt 0 = 0 := rfl
    rw [hnearest, Int.zero_mul]
    exact hzero _ rfl
  · rw [ofInt, nearestInt]
    have hn : i.natAbs ≠ 0 := Int.natAbs_ne_zero.mpr h
    obtain ⟨x, hx, hneg, hnum⟩ := exists_ofRatio_one (decide (i < 0)) hn ((Nat.log2_lt hn).mpr hi)
    rw [hx, Option.getD_some, signedNumerator, hneg, hnum]
    by_cases hlt : i < 0
    · simp only [hlt, decide_true, if_true, Int.natCast_mul, Int.neg_mul]
    · simp [hlt]

/-- **Nearest doubles are compared as the values that the integers are rounded to.** -/
theorem compare_ofInt {i j : Int} (hi : i.natAbs < wordCount) (hj : j.natAbs < wordCount) :
    (ofInt i).compare (ofInt j) = Ord.compare (nearestInt i) (nearestInt j) := by
  have hpos : (0 : Int) < (ofInt i).denominator * (ofInt j).denominator :=
    Int.mul_pos (Int.natCast_pos.mpr (denominator_pos _)) (Int.natCast_pos.mpr (denominator_pos _))
  rw [compare, signedNumerator_ofInt hi, signedNumerator_ofInt hj, Int.mul_assoc, Int.mul_assoc,
    Int.mul_comm ((ofInt j).denominator : Int)]
  exact compare_map (fun _ _ h => Int.mul_lt_mul_of_pos_right h hpos) (nearestInt i) (nearestInt j)

theorem truncate_ofInt {i : Int} (hi : i.natAbs < wordCount) : (ofInt i).truncate = nearestInt i := by
  have hpos : ((ofInt i).denominator : Int) ≠ 0 := Int.natCast_ne_zero.mpr (Nat.ne_of_gt (denominator_pos _))
  rw [truncate, signedNumerator_ofInt hi, Int.mul_tdiv_cancel _ hpos]

end Binary64

end PathQuery
