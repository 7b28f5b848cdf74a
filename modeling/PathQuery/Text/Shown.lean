import PathQuery.Text.HiddenTable
import PathQuery.Text.Ranges

/-!
# Text/Shown — a text as messages show it

A text stands between double quotes.  A quote and a backslash get a backslash, four controls have a
letter or a digit of their own, and every other character that leaves no mark of its own is told by
its number.
-/

namespace PathQuery.Text

/-- Whether a character leaves no mark of its own. -/
def isHidden (c : Char) : Bool :=
  inRanges graphemeExtendRanges c.toNat || inRanges unseenRanges c.toNat

/-- A character of a text in messages. -/
def shownChar (c : Char) : List Char :=
  match c with
  | '"' => ['\\', '"']
  | '\\' => ['\\', '\\']
  | '\x00' => ['\\', '0']
  | '\t' => ['\\', 't']
  | '\n' => ['\\', 'n']
  | '\r' => ['\\', 'r']
  | c =>
    if isHidden c then ['\\', 'u', '{'] ++ Nat.toDigits 16 c.toNat ++ ['}'] else [c]

/-- A text in messages. -/
def shown (s : String) : String :=
  String.ofList ('"' :: s.toList.flatMap shownChar ++ ['"'])

end PathQuery.Text
