import PathQuery.Value.Reader

/-!
# Value/Shape — reading the parts of a text that are used

A shape tells which parts of a value are used.  The used parts are read as values, and so are the names
beside which a used part could stand; of the other parts only the form is looked at.  A part of good
form has its brackets, quotes and signs in order, but it may nest to any depth, its numbers may be of any
size, and an escape by a number in it may stand for half a character.
-/

namespace PathQuery.Value

/-! ## Form -/

/-- What is left of a text after the quoted text whose opening quote stands before it. -/
def skipQuoted : List Char → Option (List Char)
  | '"' :: rest => some rest
  | '\\' :: 'u' :: a :: b :: c :: d :: rest =>
    if [a, b, c, d].all fun x => (hexValue? x).isSome then skipQuoted rest else none
  | '\\' :: c :: rest => if c ∈ ['"', '\\', '/', 'b', 'f', 'n', 'r', 't'] then skipQuoted rest else none
  | c :: rest => if c.toNat < 0x20 then none else skipQuoted rest
  | [] => none

/-- A name or a text of which only the form is looked at. -/
def passQuoted (cs : List Char) : Option (Unit × List Char) := (skipQuoted cs).map ((), ·)

/-- One value at the front of a text of which only the form is looked at; `size` bounds the characters
of the text, and `depth` the levels of arrays and objects. -/
def passValue (size : Nat) : (depth : Nat) → List Char → Option (Unit × List Char)
  | _, 'n' :: 'u' :: 'l' :: 'l' :: rest => some ((), rest)
  | _, 't' :: 'r' :: 'u' :: 'e' :: rest => some ((), rest)
  | _, 'f' :: 'a' :: 'l' :: 's' :: 'e' :: rest => some ((), rest)
  | _, '"' :: rest => passQuoted rest
  | depth, '[' :: rest =>
    match depth with
    | 0 => none
    | depth + 1 =>
      (readArray size (fun _ => passValue size depth) rest).map fun (_, rest) => ((), rest)
  | depth, '\x7b' :: rest =>
    match depth with
    | 0 => none
    | depth + 1 =>
      (readObject size passQuoted (fun _ => passValue size depth) rest).map
        fun (_, rest) => ((), rest)
  | _, cs => (Numeral.split cs).map fun (_, rest) => ((), rest)

/-- What is left of a text after the value of good form at its front; `size` bounds the characters of
the text, and so its levels. -/
def skipValue (size : Nat) (cs : List Char) : Option (List Char) :=
  (passValue size size cs).map (·.2)

/-! ## Shapes -/

/-- The parts of a value that are used. -/
inductive Shape where
  /-- Every part. -/
  | whole
  /-- The declared fields of an object, or the items of an array in their places. -/
  | record (declared : List String) (part : String → Shape)
  /-- Every field of an object. -/
  | map (item : Shape)

/-- Reads the value at the front of a text as far as its shape uses it; parts that are not used come
out as null. -/
def readShaped (size : Nat) : Shape → List Char → Option (Value × List Char)
  | .record declared part, '\x7b' :: rest =>
    let item (name : String) (cs : List Char) :=
      if declared.contains name then readShaped size (part name) cs
      else (skipValue size cs).map (Value.null, ·)
    (readObject size (readText? size) item rest).map fun (fields, rest) => (.object fields, rest)
  | .record declared part, '[' :: rest =>
    let item (i : Nat) (cs : List Char) :=
      match declared[i]? with
      | some name => readShaped size (part name) cs
      | none => (skipValue size cs).map (Value.null, ·)
    (readArray size item rest).map fun (items, rest) => (.array items, rest)
  | .map item, '\x7b' :: rest =>
    (readObject size (readText? size) (fun _ => readShaped size item) rest).map
      fun (fields, rest) => (.object fields, rest)
  | _, cs => readValue size greatestDepth cs

/-- The value that a text denotes as far as a shape uses it, with repeated names as they stand. -/
def readAs? (shape : Shape) (text : String) : Option Value :=
  let cs := text.toList
  readAll? (readShaped (cs.length + 1) shape) cs

end PathQuery.Value
