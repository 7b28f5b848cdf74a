import PathQuery.Value

/-!
# Value/Printer — the compact text of a value

Fields are written in their order, without blanks.  In texts the quote, the backslash and the
control characters are escaped and every other character stands for itself.
-/

namespace PathQuery.Value

/-- A hexadecimal digit in lower case. -/
def hexDigit (n : Nat) : Char := Nat.digitChar (n % 16)

/-- A character inside a quoted text. -/
def escapeChar (c : Char) : List Char :=
  match c with
  | '"' => ['\\', '"']
  | '\\' => ['\\', '\\']
  | '\x08' => ['\\', 'b']
  | '\x0c' => ['\\', 'f']
  | '\n' => ['\\', 'n']
  | '\r' => ['\\', 'r']
  | '\t' => ['\\', 't']
  | c =>
    if c.toNat < 0x20 then
      ['\\', 'u', '0', '0', hexDigit (c.toNat / 16), hexDigit c.toNat]
    else [c]

/-- A quoted text. -/
def quote (s : String) : String :=
  String.ofList ('"' :: (s.toList.flatMap escapeChar ++ ['"']))

mutual

/-- The compact text of a value. -/
def print : Value → String
  | .null => "null"
  | .bool b => if b then "true" else "false"
  | .number n => n.toText
  | .string s => quote s
  | .array items => "[" ++ printItems items ++ "]"
  | .object fields => "\x7b" ++ printFields fields ++ "\x7d"

/-- The items of an array, separated by commas. -/
def printItems : List Value → String
  | [] => ""
  | [v] => print v
  | v :: rest => print v ++ "," ++ printItems rest

/-- The fields of an object, separated by commas. -/
def printFields : List (String × Value) → String
  | [] => ""
  | [(name, v)] => quote name ++ ":" ++ print v
  | (name, v) :: rest => quote name ++ ":" ++ print v ++ "," ++ printFields rest

end

end PathQuery.Value
