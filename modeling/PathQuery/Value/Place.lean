import PathQuery.Text.Offset
import PathQuery.Value.Refusal
import PathQuery.Value.Shape

/-!
# Value/Place — where in a text the part of a value stands that is refused

The place of a fault is told by the line and the number of bytes on it up to where reading stopped: before
an array or an object of the wrong type, at the first item too many, and after anything else.
-/

namespace PathQuery.Value

/-- Skips items of an array; `size` bounds the characters of the text. -/
def skipItems (size : Nat) : Nat → List Char → Option (List Char)
  | 0, cs => some cs
  | count + 1, cs => do
    let rest ← skipValue size (skipGaps cs)
    match skipGaps rest with
    | ',' :: rest => skipItems size count rest
    | _ => none

/-- Skips the fields of an object before the value of a name. -/
def skipFields (size : Nat) (name : String) : (bound : Nat) → List Char → Option (List Char)
  | 0, _ => none
  | bound + 1, cs =>
    match skipGaps cs with
    | '"' :: cs => do
      let (found, rest) ← readQuoted size [] cs
      match skipGaps rest with
      | ':' :: rest =>
        if String.ofList found = name then some rest
        else
          let rest ← skipValue size (skipGaps rest)
          match skipGaps rest with
          | ',' :: rest => skipFields size name bound rest
          | _ => none
      | _ => none
    | _ => none

/-- What is left of a text from the part at the end of a trail on. -/
def seek (size : Nat) : List Step → List Char → Option (List Char)
  | [], cs => some (skipGaps cs)
  | .item i :: trail, cs =>
    match skipGaps cs with
    | '[' :: rest => do seek size trail (← skipItems size i rest)
    | _ => none
  | .field name :: trail, cs =>
    match skipGaps cs with
    | '\x7b' :: rest => do seek size trail (← skipFields size name size rest)
    | _ => none

/-- What is left of a text after the value at its front. -/
def afterValue (size : Nat) (cs : List Char) : List Char :=
  (skipValue size cs).getD cs

/-- Whether the refusal of a part is noticed before the part is read. -/
def Refusal.isEarly : Refusal → Bool
  | wrongType (.array _) _ => true
  | wrongType (.object _) _ => true
  | _ => false

/-- What is left of a text where reading stopped at a fault. -/
def Fault.rest (f : Fault) (cs : List Char) : List Char :=
  let size := cs.length + 1
  match seek size f.trail cs with
  | none => cs
  | some part =>
    match f.refusal with
    | .tooLong _ => part.drop 1
    | r => if r.isEarly then part else afterValue size part

/-- The words of a refusal in a text. -/
def Refusal.describeInText : Refusal → String
  | tooLong _ => "trailing characters"
  | r => r.describe

/-- The words of the place where a text ends. -/
def endOf (cs : List Char) : String :=
  let line := cs.count '\n' + 1
  let column := Text.byteSize (cs.reverse.takeWhile (· != '\n'))
  s!" at line {line} column {column}"

/-- The words of a fault in a text, with its place. -/
def Fault.describeIn (text : String) (f : Fault) : String :=
  let cs := text.toList
  f.refusal.describeInText ++ endOf (cs.take (cs.length - (f.rest cs).length))

end PathQuery.Value
