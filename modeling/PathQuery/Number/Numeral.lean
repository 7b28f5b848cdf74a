import PathQuery.Number.Shortest

/-!
# Number/Numeral — decimal numerals and the two ways of reading them

A numeral is a sign, digits before and after the point, and a power of ten.  Literals in filters are
read to the nearest double (`nearest`).  Numbers in documents are read in two roundings (`scaled`):
the digits that fit a 64-bit word are rounded first and then scaled by one rounded power of ten.
-/

namespace PathQuery

/-- The number of values of a 64-bit word, `2 ^ 64`. -/
def wordCount : Nat := 0x10000000000000000

/-- A decimal numeral: the digits around the point and the exponent written after them. -/
structure Numeral where
  negative : Bool
  whole : List Char
  fraction : List Char
  /-- The exponent, if the numeral has an exponent part. -/
  exponent : Option Int
deriving DecidableEq, Repr

namespace Numeral

/-- The value of a decimal digit. -/
def digitValue (c : Char) : Nat := c.toNat - '0'.toNat

/-- The number that a list of decimal digits denotes. -/
def natOfDigits (ds : List Char) : Nat := ds.foldl (fun n c => 10 * n + digitValue c) 0

/-- The digits at the front of a text, and what follows them. -/
def splitDigits (cs : List Char) : List Char × List Char :=
  (cs.takeWhile Char.isDigit, cs.dropWhile Char.isDigit)

theorem splitDigits_append (cs : List Char) : (splitDigits cs).1 ++ (splitDigits cs).2 = cs :=
  List.takeWhile_append_dropWhile

/-- Reads an exponent part `e`, an optional sign and at least one digit; the text is left alone if
it does not start with an `e`. -/
def splitExponent : List Char → Option (Option Int × List Char)
  | c :: rest =>
    if c = 'e' ∨ c = 'E' then
      let (negative, rest) := match rest with
        | '-' :: r => (true, r)
        | '+' :: r => (false, r)
        | r => (false, r)
      let (ds, rest) := splitDigits rest
      if ds.isEmpty then none
      else some (some (if negative then -(natOfDigits ds : Int) else natOfDigits ds), rest)
    else some (none, c :: rest)
  | [] => some (none, [])

/-! ## Numerals of a document -/

/-- Reads a numeral as documents write it: no leading zeros, digits on both sides of a point. -/
def split (cs : List Char) : Option (Numeral × List Char) := do
  let (negative, cs) := match cs with
    | '-' :: r => (true, r)
    | r => (false, r)
  let (whole, cs) := splitDigits cs
  if whole.isEmpty ∨ (whole.head? = some '0' ∧ whole.length > 1) then none
  let (fraction, cs) ← match cs with
    | '.' :: r =>
      let (fraction, r) := splitDigits r
      if fraction.isEmpty then none else some (fraction, r)
    | r => some ([], r)
  let (exponent, cs) ← splitExponent cs
  return (⟨negative, whole, fraction, exponent⟩, cs)

/-- Reads a numeral as filter literals write it: an optional sign, digits on at least one side of an
optional point, and an optional exponent, up to the end of the text. -/
def ofLiteral? (cs : List Char) : Option Numeral := do
  let (negative, cs) := match cs with
    | '-' :: r => (true, r)
    | '+' :: r => (false, r)
    | r => (false, r)
  let (whole, cs) := splitDigits cs
  let (fraction, cs) := match cs with
    | '.' :: r => splitDigits r
    | r => ([], r)
  if whole.isEmpty ∧ fraction.isEmpty then none
  let (exponent, cs) ← splitExponent cs
  if cs.isEmpty then return ⟨negative, whole, fraction, exponent⟩ else none

/-- The integer that a numeral without point and exponent denotes. -/
def integer? (n : Numeral) : Option Int :=
  if n.fraction.isEmpty ∧ n.exponent.isNone then
    let m := natOfDigits n.whole
    some (if n.negative then -(m : Int) else m)
  else none

/-! ## To the nearest double -/

/-- The double nearest to the numeral; `none` above the range.  A numeral whose leading digit lies
far outside the range of exponents is decided without its power of ten. -/
def nearest (n : Numeral) : Option Binary64 :=
  let m := natOfDigits (n.whole ++ n.fraction)
  let power : Int := n.exponent.getD 0 - n.fraction.length
  let lead : Int := power + (Nat.toDigits 10 m).length
  if m = 0 ∨ lead < -400 then some (.zero n.negative)
  else if lead > 400 then none
  else
    let (t, u) := Binary64.tenRatio power
    Binary64.ofRatio n.negative (m * t) u

/-! ## By one scaling of a word -/

/-- Takes digits into a word while they fit 64 bits; gives the word and the digits left. -/
def takeWord (word : Nat) : List Char → Nat × List Char
  | [] => (word, [])
  | c :: rest =>
    let next := 10 * word + digitValue c
    if next < wordCount then takeWord next rest else (word, c :: rest)

/-- Divides by `10 ^ 308` a number of times. -/
def divideByGreatest (ten308 : Binary64) : Nat → Binary64 → Binary64
  | 0, x => x
  | n + 1, x => divideByGreatest ten308 n ((x.div ten308).getD x)

/-- The double nearest to `10 ^ k`. -/
def tenPower (k : Nat) : Option Binary64 := Binary64.ofRatio false (Nat.pow 10 k) 1

/-- `x * 10 ^ power` by one multiplication or division with a rounded power of ten; division by
more than `10 ^ 308` goes in steps, of which the third always reaches zero. -/
def scale (x : Binary64) (power : Int) : Option Binary64 :=
  match power with
  | .ofNat k => if x.isZero then some x else if k > 308 then none else (tenPower k).bind x.mul
  | .negSucc k =>
    if x.isZero then some x
    else do
      let steps := k / 308
      let x := divideByGreatest (← tenPower 308) (min steps 3) x
      x.div (← tenPower (k + 1 - 308 * steps))

/-- The reading of documents: whole digits that no longer fit the word count as powers of ten, and
fraction digits after the first that does not fit are dropped. -/
def scaled (n : Numeral) : Option Binary64 :=
  let (word, left) := takeWord 0 n.whole
  let (word', dropped) := takeWord word n.fraction
  let power : Int := left.length - (n.fraction.length - dropped.length : Nat) + n.exponent.getD 0
  (scale (.ofInt word') power).map fun x => { x with negative := n.negative }

end Numeral

end PathQuery
