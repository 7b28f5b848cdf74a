import PathQuery.Value

/-!
# Value/Reader — reading a value from its text

`Value.read?` accepts one value with blanks around it and refuses everything else.  Arrays and objects
nest at most 127 deep.  `readValue` keeps repeated names as they stand, so that a reader of records can
refuse them; `read?` merges them.

Every step hands on the characters it has not used.  The number of characters of the whole text bounds
the number of items, fields and characters of any part, so it serves as the bound of each loop.
-/

namespace PathQuery.Value

/-- A character between the parts of a text of values. -/
def isGap (c : Char) : Bool := c == ' ' || c == '\t' || c == '\n' || c == '\r'

/-- The text without the blanks at its front. -/
def skipGaps (cs : List Char) : List Char := cs.dropWhile isGap

/-- The value of a hexadecimal digit. -/
def hexValue? (c : Char) : Option Nat :=
  if c.isDigit then some (c.toNat - '0'.toNat)
  else if 'a' ≤ c ∧ c ≤ 'f' then some (c.toNat - 'a'.toNat + 10)
  else if 'A' ≤ c ∧ c ≤ 'F' then some (c.toNat - 'A'.toNat + 10)
  else none

/-- Four hexadecimal digits as a number. -/
def readUnit : List Char → Option (Nat × List Char)
  | a :: b :: c :: d :: rest => do
    let unit := (← hexValue? a) * 4096 + (← hexValue? b) * 256 + (← hexValue? c) * 16 + (← hexValue? d)
    some (unit, rest)
  | _ => none

/-- A character written as `\u` and four digits, or as two such units for a character beyond the
first plane; a unit of a pair that stands alone is refused. -/
def readCodePoint (cs : List Char) : Option (Char × List Char) := do
  let (high, rest) ← readUnit cs
  if high < 0xD800 ∨ 0xDFFF < high then some (Char.ofNat high, rest)
  else if 0xDC00 ≤ high then none
  else
    match rest with
    | '\\' :: 'u' :: rest =>
      let (low, rest) ← readUnit rest
      if 0xDC00 ≤ low ∧ low ≤ 0xDFFF then
        some (Char.ofNat (0x10000 + (high - 0xD800) * 1024 + (low - 0xDC00)), rest)
      else none
    | _ => none

/-- The character that an escape after a backslash stands for. -/
def readEscape : List Char → Option (Char × List Char)
  | '"' :: rest => some ('"', rest)
  | '\\' :: rest => some ('\\', rest)
  | '/' :: rest => some ('/', rest)
  | 'b' :: rest => some ('\x08', rest)
  | 'f' :: rest => some ('\x0c', rest)
  | 'n' :: rest => some ('\n', rest)
  | 'r' :: rest => some ('\r', rest)
  | 't' :: rest => some ('\t', rest)
  | 'u' :: rest => readCodePoint rest
  | _ => none

/-- The characters of a quoted text up to its closing quote, in reverse before `acc`. -/
def readQuoted : (bound : Nat) → (acc : List Char) → List Char → Option (List Char × List Char)
  | 0, _, _ => none
  | _ + 1, acc, '"' :: rest => some (acc.reverse, rest)
  | bound + 1, acc, '\\' :: rest => do
    let (c, rest) ← readEscape rest
    readQuoted bound (c :: acc) rest
  | bound + 1, acc, c :: rest => if c.toNat < 0x20 then none else readQuoted bound (c :: acc) rest
  | _ + 1, _, [] => none

/-- A name or a text after its opening quote, in a text of at most `size` characters. -/
def readText? (size : Nat) (cs : List Char) : Option (String × List Char) :=
  (readQuoted size [] cs).map fun (text, rest) => (String.ofList text, rest)

variable {α ν : Type}

/-- The items of an array up to its closing bracket, the item at a position read by `item`; the next
position is `next`. -/
def readItems (item : Nat → List Char → Option (α × List Char)) :
    (bound : Nat) → (next : Nat) → (acc : List α) → List Char → Option (List α × List Char)
  | 0, _, _, _ => none
  | bound + 1, next, acc, cs => do
    let (a, rest) ← item next (skipGaps cs)
    match skipGaps rest with
    | ',' :: rest => readItems item bound (next + 1) (a :: acc) rest
    | ']' :: rest => some ((a :: acc).reverse, rest)
    | _ => none

/-- The fields of an object up to its closing brace, each name read by `name` and the value of that
name by `item`. -/
def readFields (name : List Char → Option (ν × List Char))
    (item : ν → List Char → Option (α × List Char)) :
    (bound : Nat) → (acc : List (ν × α)) → List Char → Option (List (ν × α) × List Char)
  | 0, _, _ => none
  | bound + 1, acc, cs => do
    match skipGaps cs with
    | '"' :: cs =>
      let (n, rest) ← name cs
      match skipGaps rest with
      | ':' :: rest =>
        let (a, rest) ← item n (skipGaps rest)
        let acc := (n, a) :: acc
        match skipGaps rest with
        | ',' :: rest => readFields name item bound acc rest
        | '\x7d' :: rest => some (acc.reverse, rest)
        | _ => none
      | _ => none
    | _ => none

/-- The items of an array after its opening bracket, in a text of at most `size` characters. -/
def readArray (size : Nat) (item : Nat → List Char → Option (α × List Char)) (cs : List Char) :
    Option (List α × List Char) :=
  match skipGaps cs with
  | ']' :: rest => some ([], rest)
  | rest => readItems item size 0 [] rest

/-- The fields of an object after its opening brace, in a text of at most `size` characters. -/
def readObject (size : Nat) (name : List Char → Option (ν × List Char))
    (item : ν → List Char → Option (α × List Char)) (cs : List Char) :
    Option (List (ν × α) × List Char) :=
  match skipGaps cs with
  | '\x7d' :: rest => some ([], rest)
  | rest => readFields name item size [] rest

/-- One value at the front of a text, in a text of at most `size` characters, with at most `depth`
levels of arrays and objects. -/
def readValue (size : Nat) : (depth : Nat) → List Char → Option (Value × List Char)
  | _, 'n' :: 'u' :: 'l' :: 'l' :: rest => some (.null, rest)
  | _, 't' :: 'r' :: 'u' :: 'e' :: rest => some (.bool true, rest)
  | _, 'f' :: 'a' :: 'l' :: 's' :: 'e' :: rest => some (.bool false, rest)
  | _, '"' :: rest => (readText? size rest).map fun (text, rest) => (.string text, rest)
  | depth, '[' :: rest =>
    match depth with
    | 0 => none
    | depth + 1 =>
      (readArray size (fun _ => readValue size depth) rest).map fun (items, rest) =>
        (.array items, rest)
  | depth, '\x7b' :: rest =>
    match depth with
    | 0 => none
    | depth + 1 =>
      (readObject size (readText? size) (fun _ => readValue size depth) rest).map
        fun (fields, rest) => (.object fields, rest)
  | _, cs => do
    let (numeral, rest) ← Numeral.split cs
    let n ← Number.ofNumeral? numeral
    some (.number n, rest)

/-- The greatest number of arrays and objects around a value. -/
def greatestDepth : Nat := 127

/-- Reads a whole text, with blanks around what `part` reads. -/
def readAll? (part : List Char → Option (α × List Char)) (cs : List Char) : Option α := do
  let (a, rest) ← part (skipGaps cs)
  if (skipGaps rest).isEmpty then some a else none

/-- The value that a text denotes. -/
def read? (text : String) : Option Value :=
  let cs := text.toList
  (readAll? (readValue (cs.length + 1) greatestDepth) cs).map merged

end PathQuery.Value
