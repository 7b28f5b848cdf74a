import PathQuery.Number.Numeral
import PathQuery.Text.Blank
import PathQuery.Time.Date

/-!
# Time/Literal — reading a point in time and writing it in UTC

A literal is a timestamp with an offset, a date and time without one, or a date, the last two taken as
UTC, each optionally inside `datetime'…'`.  The written form is `YYYY-MM-DDTHH:MM:SSZ`.  A second may
be the sixtieth, as leap seconds are written.
-/

namespace PathQuery.Time

open Numeral (splitDigits natOfDigits)

/-- A point in time in UTC: a date, the minute of the day and the second of the minute. -/
structure Moment where
  date : Date
  minute : Nat
  second : Nat
deriving DecidableEq, Repr

/-! ## Offsets -/

/-- The moment in UTC of a local time that is `offset` minutes ahead; an offset is less than a day. -/
def Moment.ofLocal (date : Date) (minute second : Nat) (offset : Int) : Moment :=
  let m : Int := minute - offset
  if m < 0 then ⟨date.previous, (m + 1440).toNat, second⟩
  else if 1440 ≤ m then ⟨date.next, (m - 1440).toNat, second⟩
  else ⟨date, m.toNat, second⟩

/-! ## Writing -/

/-- A number with zeros before it up to a width. -/
def padded (width n : Nat) : List Char :=
  let ds := Nat.toDigits 10 n
  List.replicate (width - ds.length) '0' ++ ds

/-- A year with four digits, with a sign outside of them. -/
def yearText (year : Int) : List Char :=
  if 0 ≤ year ∧ year ≤ 9999 then padded 4 year.toNat
  else (if year < 0 then '-' else '+') :: padded 4 year.natAbs

/-- The written form of a moment. -/
def Moment.toText (t : Moment) : String :=
  String.ofList <| yearText t.date.year ++ '-' :: padded 2 t.date.month ++ '-' :: padded 2 t.date.day ++
    'T' :: padded 2 (t.minute / 60) ++ ':' :: padded 2 (t.minute % 60) ++ ':' :: padded 2 t.second ++
    ['Z']

/-! ## Reading -/

/-- Reads exactly two digits. -/
def twoDigits : List Char → Option (Nat × List Char)
  | a :: b :: rest => if a.isDigit && b.isDigit then some (natOfDigits [a, b], rest) else none
  | _ => none

/-- Reads exactly four digits. -/
def fourDigits : List Char → Option (Nat × List Char)
  | a :: b :: c :: d :: rest =>
    if [a, b, c, d].all Char.isDigit then some (natOfDigits [a, b, c, d], rest) else none
  | _ => none

/-- Reads one given character. -/
def mark (c : Char) : List Char → Option (List Char)
  | d :: rest => if c = d then some rest else none
  | [] => none

/-- A local time of day from hour, minute and second, if it exists. -/
def timeOfDay? (hour minute second : Nat) : Option (Nat × Nat) :=
  if hour < 24 ∧ minute < 60 ∧ second ≤ 60 then some (hour * 60 + minute, second) else none

/-- A fraction of a second, which is dropped: a point and at least one digit, or nothing. -/
def skipFraction : List Char → Option (List Char)
  | '.' :: rest =>
    let (ds, rest) := splitDigits rest
    if ds.isEmpty then none else some rest
  | rest => some rest

/-- An offset in minutes at the end of a timestamp: `Z`, or a sign, hours and minutes. -/
def offset? : List Char → Option Int
  | ['Z'] => some 0
  | ['z'] => some 0
  | sign :: rest => do
    let negative ← if sign = '+' then some false else if sign = '-' ∨ sign = '−' then some true
      else none
    let (hours, rest) ← twoDigits rest
    let rest ← mark ':' rest
    let (minutes, rest) ← twoDigits rest
    if rest.isEmpty ∧ hours < 24 ∧ minutes < 60 then
      let m : Int := (hours * 60 + minutes : Nat)
      some (if negative then -m else m)
    else none
  | [] => none

/-- Reads a timestamp with an offset: fixed widths, `T` or a space between date and time. -/
def timestamp? (cs : List Char) : Option Moment := do
  let (year, cs) ← fourDigits cs
  let (month, cs) ← twoDigits (← mark '-' cs)
  let (day, cs) ← twoDigits (← mark '-' cs)
  let cs ← match cs with
    | c :: rest => if c = 'T' ∨ c = 't' ∨ c = ' ' then some rest else none
    | [] => none
  let (hour, cs) ← twoDigits cs
  let (minute, cs) ← twoDigits (← mark ':' cs)
  let (second, cs) ← twoDigits (← mark ':' cs)
  let cs ← skipFraction cs
  let offset ← offset? cs
  let (minute, second) ← timeOfDay? hour minute second
  let date : Date := ⟨year, month, day⟩
  if date.isValid then some (.ofLocal date minute second offset) else none

/-- Reads one or two digits after blanks. -/
def shortNumber (cs : List Char) : Option (Nat × List Char) :=
  match Text.trimStart cs with
  | a :: b :: rest =>
    if a.isDigit then
      if b.isDigit then some (natOfDigits [a, b], rest) else some (natOfDigits [a], b :: rest)
    else none
  | [a] => if a.isDigit then some (natOfDigits [a], []) else none
  | [] => none

/-- Reads a year after blanks: up to four digits, or any number of them after a sign. -/
def shortYear (cs : List Char) : Option (Int × List Char) :=
  let signed (rest : List Char) : Option (Nat × List Char) :=
    let (ds, rest) := splitDigits rest
    if ds.isEmpty then none else some (natOfDigits ds, rest)
  match Text.trimStart cs with
  | '-' :: rest => (signed rest).map fun (n, rest) => (-(n : Int), rest)
  | '+' :: rest => (signed rest).map fun (n, rest) => ((n : Int), rest)
  | cs =>
    let ds := (cs.take 4).takeWhile Char.isDigit
    if ds.isEmpty then none else some ((natOfDigits ds : Int), cs.drop ds.length)

/-- The years that a date can have. -/
def yearInRange (year : Int) : Bool := -262143 ≤ year && year ≤ 262142

/-- Reads a date in which every number may be short. -/
def shortDate (cs : List Char) : Option (Date × List Char) := do
  let (year, cs) ← shortYear cs
  let (month, cs) ← shortNumber (← mark '-' cs)
  let (day, cs) ← shortNumber (← mark '-' cs)
  let date : Date := ⟨year, month, day⟩
  if date.isValid && yearInRange year then some (date, cs) else none

/-- Reads a date and a time without an offset. -/
def localTime? (cs : List Char) : Option Moment := do
  let (date, cs) ← shortDate cs
  let (hour, cs) ← shortNumber (← mark 'T' cs)
  let (minute, cs) ← shortNumber (← mark ':' cs)
  let (second, cs) ← shortNumber (← mark ':' cs)
  let (minute, second) ← timeOfDay? hour minute second
  if cs.isEmpty then some ⟨date, minute, second⟩ else none

/-- Reads a date as its first moment. -/
def date? (cs : List Char) : Option Moment := do
  let (date, cs) ← shortDate cs
  if cs.isEmpty then some ⟨date, 0, 0⟩ else none

/-- The literal inside `datetime'…'`, or the literal itself. -/
def unwrapped (cs : List Char) : List Char :=
  match "datetime'".toList.isPrefixOf cs, (cs.drop 9).getLast? with
  | true, some '\'' => (cs.drop 9).dropLast
  | _, _ => cs

/-- The moment that a literal denotes. -/
def ofLiteral? (literal : String) : Option Moment :=
  let cs := unwrapped literal.toList
  (timestamp? cs).or ((localTime? cs).or (date? cs))

end PathQuery.Time
