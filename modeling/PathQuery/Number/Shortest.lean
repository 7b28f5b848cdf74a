import PathQuery.Number.Binary64

/-!
# Number/Shortest — the fewest decimal digits that read back to a double

A decimal reads back to a double when it lies in the double's rounding interval: between the
midpoints to its two neighbours, ends included when the significand is even.  `shortest` tries one
digit, two digits, and so on, and on each decimal grid only the two points next to the value: if
any point of a grid lies in the interval, one of these two does.
-/

namespace PathQuery.Binary64

/-- The decimal `digits * 10 ^ power`. -/
structure Decimal where
  digits : Nat
  power : Int
deriving DecidableEq, Repr

/-- `10 ^ e` as a ratio of natural numbers. -/
def tenRatio (e : Int) : Nat × Nat :=
  match e with
  | .ofNat k => (Nat.pow 10 k, 1)
  | .negSucc k => (1, Nat.pow 10 (k + 1))

/-- The value in quarters of a unit in the last place, so that both midpoints are integers. -/
def quarters (x : Binary64) : Nat := 4 * x.significand

/-- The lower end of the rounding interval in quarters of a unit: below a power of two the spacing
halves, except at the least exponent. -/
def lowerEnd (x : Binary64) : Nat :=
  if x.significand = leastFull ∧ x.exponent > -1074 then x.quarters - 1 else x.quarters - 2

/-- The upper end of the rounding interval in quarters of a unit. -/
def upperEnd (x : Binary64) : Nat := x.quarters + 2

/-- Whether `a / b`, counted in quarters of a unit, lies in the rounding interval. -/
def readsBack (x : Binary64) (a b : Nat) : Bool :=
  if x.significand % 2 = 0 then x.lowerEnd * b ≤ a ∧ a ≤ x.upperEnd * b
  else x.lowerEnd * b < a ∧ a < x.upperEnd * b

/-- The ratio of one decimal unit `10 ^ power` to a quarter of a binary unit. -/
def gridRatio (x : Binary64) (power : Int) : Nat × Nat :=
  let (t, u) := tenRatio power
  let (a, b) := powerRatio (x.exponent - 2)
  (t * b, u * a)

/-- The point of the decimal grid `10 ^ power` to write for `x`, if one next to `x` reads back: the
nearer of the two neighbours, the even one of two equally near. -/
def onGrid (x : Binary64) (power : Int) : Option Decimal :=
  let (a, b) := x.gridRatio power
  let low := x.quarters * b / a
  let high := low + 1
  let fits (d : Nat) : Bool := x.readsBack (d * a) b
  let twiceRest := 2 * (x.quarters * b - low * a)
  let nearer := if twiceRest < a ∨ (twiceRest = a ∧ low % 2 = 0) then low else high
  if fits low && fits high then some ⟨nearer, power⟩
  else if fits low then some ⟨low, power⟩
  else if fits high then some ⟨high, power⟩
  else none

/-- The exponent of the leading decimal digit of a nonzero magnitude. -/
def decimalExponent (x : Binary64) : Int :=
  let guess : Int := ((x.significand.log2 : Int) + x.exponent) * 30103 / 100000
  let reaches (k : Int) : Bool :=
    let (t, u) := tenRatio k
    decide (t * x.denominator ≤ x.numerator * u)
  if reaches (guess + 1) then guess + 1 else if reaches guess then guess else guess - 1

/-- The first of the grids with `count`, `count + 1`, … digits that has a point for `x`. -/
def search (x : Binary64) (lead : Int) : (tries count : Nat) → Option Decimal
  | 0, _ => none
  | tries + 1, count =>
    match x.onGrid (lead - count + 1) with
    | some d => some d
    | none => search x lead tries (count + 1)

/-- Removes trailing zeros of the digits, which are at most `fuel`. -/
def Decimal.strip : (fuel : Nat) → Decimal → Decimal
  | 0, d => d
  | fuel + 1, d => if d.digits ≠ 0 ∧ d.digits % 10 = 0 then
      strip fuel ⟨d.digits / 10, d.power + 1⟩ else d

/-- The fewest digits that read back to the magnitude of `x`; seventeen always suffice. -/
def shortest (x : Binary64) : Decimal :=
  if x.isZero then ⟨0, 0⟩
  else ((x.search x.decimalExponent 17 1).getD ⟨x.numerator, 0⟩).strip 17

/-! ## Layout -/

/-- How the digits of a number are laid out as text. -/
structure Layout where
  /-- The least exponent of the leading digit that is written without an exponent. -/
  leastPlain : Int
  /-- The greatest exponent of the leading digit that is written without an exponent. -/
  greatestPlain : Int

/-- Numbers of documents are written plainly from `0.00001` up to sixteen digits before the
point, and otherwise as `d.ddde±NN`. -/
def documentLayout : Layout := ⟨-5, 15⟩

/-- The digits of a natural number as characters. -/
def digitChars (n : Nat) : List Char := Nat.toDigits 10 n

/-- The digits `ds`, of which `whole` stand before the point, with at least one digit on both
sides of the point. -/
def placePoint (ds : List Char) (whole : Int) : List Char :=
  match whole with
  | .ofNat (w + 1) =>
    let before := ds.take (w + 1) ++ List.replicate (w + 1 - ds.length) '0'
    let after := ds.drop (w + 1)
    before ++ '.' :: (if after.isEmpty then ['0'] else after)
  | .ofNat 0 => '0' :: '.' :: ds
  | .negSucc k => '0' :: '.' :: (List.replicate (k + 1) '0' ++ ds)

/-- The digits `ds` in scientific form with the exponent `e` of the leading digit. -/
def scientific (ds : List Char) (e : Int) : List Char :=
  let mantissa := match ds with
    | [] => []
    | [d] => [d]
    | d :: rest => d :: '.' :: rest
  mantissa ++ 'e' :: (if e < 0 then '-' else '+') :: digitChars e.natAbs

/-- The text of a decimal under a layout. -/
def Layout.text (layout : Layout) (d : Decimal) : List Char :=
  let ds := digitChars d.digits
  let lead : Int := d.power + ds.length - 1
  if d.digits = 0 then ['0', '.', '0']
  else if layout.leastPlain ≤ lead ∧ lead ≤ layout.greatestPlain then placePoint ds (lead + 1)
  else scientific ds lead

/-- The text of a double: its sign and its shortest digits. -/
def toText (x : Binary64) : String :=
  String.ofList ((if x.negative then ['-'] else []) ++ documentLayout.text x.shortest)

end PathQuery.Binary64
