/-!
# Text/Utf8 — texts from the bytes of UTF-8

A character has one to four bytes; the first tells how many follow and between which bounds each lies.
Bytes that start no character, or that break off inside one, are a fault.  `decode?` refuses any fault,
and `decodeLossy` puts a replacement character in its place.
-/

namespace PathQuery.Text.Utf8

/-- What a first byte says: its part of the code point, and the bounds of the bytes that follow. -/
def lead (byte : Nat) : Option (Nat × List (Nat × Nat)) :=
  let tail := (0x80, 0xBF)
  if byte < 0x80 then some (byte, [])
  else if byte < 0xC2 then none
  else if byte < 0xE0 then some (byte % 32, [tail])
  else if byte = 0xE0 then some (byte % 16, [(0xA0, 0xBF), tail])
  else if byte = 0xED then some (byte % 16, [(0x80, 0x9F), tail])
  else if byte < 0xF0 then some (byte % 16, [tail, tail])
  else if byte = 0xF0 then some (byte % 8, [(0x90, 0xBF), tail, tail])
  else if byte < 0xF4 then some (byte % 8, [tail, tail, tail])
  else if byte = 0xF4 then some (byte % 8, [(0x80, 0x8F), tail, tail])
  else none

/-- Reads the bytes that follow a first byte; at a fault the bytes that fit are gone. -/
def follow : List (Nat × Nat) → (code : Nat) → List UInt8 → Option Nat × List UInt8
  | [], code, bytes => (some code, bytes)
  | _ :: _, _, [] => (none, [])
  | (low, high) :: bounds, code, byte :: bytes =>
    if low ≤ byte.toNat ∧ byte.toNat ≤ high then
      follow bounds (code * 64 + byte.toNat % 64) bytes
    else (none, byte :: bytes)

theorem length_follow_le (bounds : List (Nat × Nat)) (code : Nat) (bytes : List UInt8) :
    (follow bounds code bytes).2.length ≤ bytes.length := by
  fun_induction follow bounds code bytes with
  | case1 => exact Nat.le_refl _
  | case2 => exact Nat.le_refl _
  | case3 low high bounds code byte bytes h ih => exact Nat.le_succ_of_le ih
  | case4 => exact Nat.le_refl _

/-- The characters of some bytes, `none` at each fault. -/
def pieces : List UInt8 → List (Option Char)
  | [] => []
  | byte :: bytes =>
    match lead byte.toNat with
    | none => none :: pieces bytes
    | some (code, bounds) =>
      (follow bounds code bytes).1.map Char.ofNat :: pieces (follow bounds code bytes).2
termination_by bytes => bytes.length
decreasing_by
  · simp
  · exact Nat.lt_succ_of_le (length_follow_le bounds code bytes)

/-- The text of some bytes, if there is no fault. -/
def decode? (bytes : List UInt8) : Option String := ((pieces bytes).mapM id).map String.ofList

/-- The text of some bytes, with a replacement character for each fault. -/
def decodeLossy (bytes : List UInt8) : String :=
  String.ofList ((pieces bytes).map (·.getD '\uFFFD'))

/-- The bytes of a text. -/
def encode (text : String) : List UInt8 := text.toUTF8.toList

end PathQuery.Text.Utf8
