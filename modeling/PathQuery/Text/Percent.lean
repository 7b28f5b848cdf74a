import PathQuery.Text.Offset
import PathQuery.Text.Utf8

/-!
# Text/Percent — bytes written as a percent sign and two hexadecimal digits

In a path `%41` stands for the byte 41 in hexadecimal; a percent sign that is not followed by two digits
stands for itself.  In a form a plus sign stands for a blank, fields are separated by `&`, and the first
`=` of a field ends its name.
-/

namespace PathQuery.Text

/-- The value of a hexadecimal digit. -/
def hexDigit? (byte : UInt8) : Option UInt8 :=
  if 48 ≤ byte ∧ byte ≤ 57 then some (byte - 48)
  else if 65 ≤ byte ∧ byte ≤ 70 then some (byte - 55)
  else if 97 ≤ byte ∧ byte ≤ 102 then some (byte - 87)
  else none

/-- The byte after a percent sign, and what follows its two digits. -/
def escaped? : List UInt8 → Option (UInt8 × List UInt8)
  | high :: low :: rest => do return ((← hexDigit? high) * 16 + (← hexDigit? low), rest)
  | _ => none

theorem length_of_escaped? {bytes rest : List UInt8} {byte : UInt8}
    (h : escaped? bytes = some (byte, rest)) : rest.length < bytes.length := by
  match bytes with
  | high :: low :: tail =>
    simp only [escaped?] at h
    cases hh : hexDigit? high <;> cases hl : hexDigit? low <;>
      simp [hh, hl] at h
    obtain ⟨-, rfl⟩ := h
    exact Nat.lt_succ_of_lt (Nat.lt_succ_self _)
  | [] => simp [escaped?] at h
  | [_] => simp [escaped?] at h

/-- The bytes that some percent-encoded bytes stand for. -/
def percentDecoded : List UInt8 → List UInt8
  | [] => []
  | byte :: bytes =>
    if byte = 37 then
      match h : escaped? bytes with
      | some (value, rest) =>
        have := length_of_escaped? h
        value :: percentDecoded rest
      | none => byte :: percentDecoded bytes
    else byte :: percentDecoded bytes
termination_by bytes => bytes.length
decreasing_by
  · simp only [List.length_cons]; omega
  · simp
  · simp

/-- The text of a part of a path, if its bytes are one. -/
def pathPart? (part : String) : Option String :=
  Utf8.decode? (percentDecoded (Utf8.encode part))

/-- The text of a part of a form. -/
def formPart (part : List Char) : String :=
  let spaced := part.map fun c => if c = '+' then ' ' else c
  Utf8.decodeLossy (percentDecoded (Utf8.encode (String.ofList spaced)))

/-- A field of a form: what stands before and after the first `=`. -/
def formField (part : List Char) : String × String :=
  (formPart (part.takeWhile (· != '=')), formPart ((part.dropWhile (· != '=')).drop 1))

/-- The fields of a form in order, empty ones left out. -/
def formFields (form : String) : List (String × String) :=
  ((splitAt '&' form.toList).filter (!·.isEmpty)).map formField

end PathQuery.Text
