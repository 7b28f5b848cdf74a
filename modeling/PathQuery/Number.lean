import PathQuery.Number.Numeral

/-!
# Number — integers and doubles as one kind of number

A document keeps integers of 64 bits apart from doubles: `5` and `5.0` are different values that
compare as equal.  Two integers that fit a signed word compare exactly; any other pair compares as
doubles.
-/

namespace PathQuery

/-- A number of a document. -/
inductive Number where
  /-- An integer that fits a signed or an unsigned 64-bit word. -/
  | int (value : Int)
  /-- A finite double. -/
  | real (value : Binary64)
deriving DecidableEq, Repr, Inhabited

/-- The least signed 64-bit integer. -/
def leastWord : Int := -0x8000000000000000

/-- The greatest signed 64-bit integer. -/
def greatestWord : Int := 0x7fffffffffffffff

/-- The nearest integer to `i` that a signed word holds. -/
def clampWord (i : Int) : Int := max leastWord (min greatestWord i)

namespace Number

/-- The number as a signed word, if it is an integer that fits one. -/
def word? : Number → Option Int
  | .int i => if leastWord ≤ i ∧ i ≤ greatestWord then some i else none
  | .real _ => none

/-- The number as a double. -/
def toReal : Number → Binary64
  | .int i => .ofInt i
  | .real x => x

/-- The order of two numbers: exact between signed words, otherwise as doubles. -/
def compare (a b : Number) : Ordering :=
  match a.word?, b.word? with
  | some i, some j => Ord.compare i j
  | _, _ => a.toReal.compare b.toReal

/-- Whether two numbers are the same in kind and value; the two zeros of doubles are. -/
def agrees : Number → Number → Bool
  | .int i, .int j => i == j
  | .real x, .real y => x.compare y == .eq
  | _, _ => false

/-- The signed word nearest to the integer part. -/
def truncated (n : Number) : Int :=
  n.word?.getD (clampWord n.toReal.truncate)

/-- The number of a document's numeral: an integer where 64 bits hold it, with `-0` a double. -/
def ofNumeral? (n : Numeral) : Option Number :=
  match n.integer? with
  | some i =>
    if n.negative then
      if i < 0 ∧ leastWord ≤ i then some (.int i) else n.scaled.map .real
    else if i < wordCount then some (.int i)
    else n.scaled.map .real
  | none => n.scaled.map .real

/-- The text of a number. -/
def toText : Number → String
  | .int i => toString i
  | .real x => x.toText

end Number

end PathQuery
