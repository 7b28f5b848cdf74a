import PathQuery.Number.Rounding

/-!
# Number/Binary64 — finite double-precision numbers, held exactly

A finite binary number of 53 significant bits is its sign, its significand and the power of two
that scales it.  Every operation works on the exact value `significand * 2 ^ exponent`, so a
comparison is a comparison of integers and a rounding happens in one place only, `ofRatio`.
-/

namespace PathQuery

/-- A finite double: `± significand * 2 ^ exponent`.  `ofRatio` builds the normal forms, in which
the significand has 53 bits, or fewer at the least exponent `-1074`. -/
structure Binary64 where
  negative : Bool
  significand : Nat
  exponent : Int
deriving DecidableEq, Repr, Inhabited

namespace Binary64

/-- The least significand of 53 bits, `2 ^ 52`. -/
def leastFull : Nat := 0x10000000000000

/-! ## The exact value as a ratio -/

/-- `2 ^ e` as a ratio of natural numbers. -/
def powerRatio (e : Int) : Nat × Nat :=
  match e with
  | .ofNat k => (Nat.pow 2 k, 1)
  | .negSucc k => (1, Nat.pow 2 (k + 1))

/-- The numerator of the magnitude `significand * 2 ^ exponent`. -/
def numerator (x : Binary64) : Nat := x.significand * (powerRatio x.exponent).1

/-- The denominator of the magnitude, a power of two. -/
def denominator (x : Binary64) : Nat := (powerRatio x.exponent).2

theorem denominator_pos (x : Binary64) : 0 < x.denominator := by
  unfold denominator powerRatio
  split
  · exact Nat.one_pos
  · exact Nat.pow_pos (by decide)

/-- The numerator with the sign. -/
def signedNumerator (x : Binary64) : Int :=
  if x.negative then -(x.numerator : Int) else x.numerator

/-- Whether the number is a zero of either sign. -/
def isZero (x : Binary64) : Bool := x.significand == 0

/-! ## Rounding -/

/-- The zero of a sign. -/
def zero (negative : Bool) : Binary64 := ⟨negative, 0, -1074⟩

/-- `num / den` counted in units of `2 ^ e`, as a ratio. -/
def inUnits (num den : Nat) (e : Int) : Nat × Nat :=
  let (up, down) := powerRatio e
  (num * down, den * up)

/-- The exponent of the unit in which a positive ratio has 53 bits before the point, and at least
the exponent of the smallest positive double. -/
def unitExponent (num den : Nat) : Int :=
  let e : Int := (num.log2 : Int) - den.log2 - 52
  let (n, d) := inUnits num den e
  max (if n / d < leastFull then e - 1 else e) (-1074)

/-- The double nearest to `± num / den`, ties to the even significand; `none` above the range. -/
def ofRatio (negative : Bool) (num den : Nat) : Option Binary64 :=
  if num = 0 then some (zero negative)
  else
    let e := unitExponent num den
    let (n, d) := inUnits num den e
    let m := roundHalfEven n d
    let x : Binary64 := if m = 2 * leastFull then ⟨negative, leastFull, e + 1⟩ else ⟨negative, m, e⟩
    if x.exponent > 971 then none else some x

/-- The largest finite magnitude. -/
def greatest (negative : Bool) : Binary64 := ⟨negative, 2 * leastFull - 1, 971⟩

/-- The double nearest to an integer; one beyond the range gives the largest magnitude, which no
64-bit integer reaches. -/
def ofInt (i : Int) : Binary64 :=
  (ofRatio (i < 0) i.natAbs 1).getD (greatest (i < 0))

/-- The product, rounded once. -/
def mul (x y : Binary64) : Option Binary64 :=
  ofRatio (x.negative != y.negative) (x.numerator * y.numerator) (x.denominator * y.denominator)

/-- The quotient by a nonzero number, rounded once. -/
def div (x y : Binary64) : Option Binary64 :=
  ofRatio (x.negative != y.negative) (x.numerator * y.denominator) (x.denominator * y.numerator)

/-- The opposite number. -/
def neg (x : Binary64) : Binary64 := { x with negative := !x.negative }

/-! ## Order and truncation -/

/-- The order of the values; the two zeros are equal. -/
def compare (x y : Binary64) : Ordering :=
  Ord.compare (x.signedNumerator * y.denominator) (y.signedNumerator * x.denominator)

/-- The integer part, toward zero. -/
def truncate (x : Binary64) : Int := x.signedNumerator.tdiv x.denominator

end Binary64

end PathQuery
