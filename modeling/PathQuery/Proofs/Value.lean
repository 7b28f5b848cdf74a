import Mathlib.Tactic.Common
import PathQuery.Result.IndexKey
import PathQuery.Store.Match

/-!
# Proofs/Value — values that are equal, and values that are kept as they are as keys

Equality of values is decidable (`same_iff`).  A key keeps a text, and an integer that fits a signed word, as
it is (`IsKey.exists_key`); any other number is cut.  Such values are equal only to themselves
(`IsKey.equals_iff`).
-/

namespace PathQuery.Value

/-! ## Equality -/

mutual

/-- Whether two values are written the same way. -/
def same : Value → Value → Bool
  | .null, .null => true
  | .bool a, .bool b => a == b
  | .number a, .number b => a == b
  | .string a, .string b => a == b
  | .array as, .array bs => sameItems as bs
  | .object fs, .object gs => sameFields fs gs
  | _, _ => false

/-- `same` over arrays. -/
def sameItems : List Value → List Value → Bool
  | [], [] => true
  | a :: as, b :: bs => same a b && sameItems as bs
  | _, _ => false

/-- `same` over fields. -/
def sameFields : List (String × Value) → List (String × Value) → Bool
  | [], [] => true
  | (name, v) :: fs, (other, w) :: gs => name == other && same v w && sameFields fs gs
  | _, _ => false

end

mutual

theorem same_iff : ∀ {a b : Value}, same a b = true ↔ a = b
  | .null, b => by cases b <;> simp [same]
  | .bool _, b => by cases b <;> simp [same]
  | .number _, b => by cases b <;> simp [same]
  | .string _, b => by cases b <;> simp [same]
  | .array as, b => by
    cases b with
    | array bs => rw [same, sameItems_iff, array.injEq]
    | _ => simp [same]
  | .object fs, b => by
    cases b with
    | object gs => rw [same, sameFields_iff, object.injEq]
    | _ => simp [same]

theorem sameItems_iff : ∀ {as bs : List Value}, sameItems as bs = true ↔ as = bs
  | [], bs => by cases bs <;> simp [sameItems]
  | a :: as, bs => by
    cases bs with
    | nil => simp [sameItems]
    | cons b bs => rw [sameItems, Bool.and_eq_true, same_iff, sameItems_iff, List.cons.injEq]

theorem sameFields_iff : ∀ {fs gs : List (String × Value)}, sameFields fs gs = true ↔ fs = gs
  | [], gs => by cases gs <;> simp [sameFields]
  | (name, v) :: fs, gs => by
    cases gs with
    | nil => simp [sameFields]
    | cons g gs =>
      obtain ⟨other, w⟩ := g
      rw [sameFields, Bool.and_eq_true, Bool.and_eq_true, beq_iff_eq, same_iff, sameFields_iff,
        List.cons.injEq, Prod.mk.injEq]

end

instance : DecidableEq Value := fun _ _ => decidable_of_iff _ same_iff

/-! ## Keys -/

/-- A value that is kept as it is as a key: a text, or an integer that fits a signed word. -/
def IsKey : Value → Prop
  | .string _ => True
  | .number (.int i) => leastWord ≤ i ∧ i ≤ greatestWord
  | _ => False

/-- A key is a text or an integer. -/
theorem isKey_iff {v : Value} : v.IsKey ↔
    (∃ s, v = .string s) ∨ ∃ i, v = .number (.int i) ∧ (Number.int i).word? = some i := by
  constructor
  · intro h
    cases v with
    | string s => exact .inl ⟨s, rfl⟩
    | number n =>
      cases n with
      | int i => exact .inr ⟨i, rfl, if_pos h⟩
      | real x => exact h.elim
    | null => exact h.elim
    | bool b => exact h.elim
    | array items => exact h.elim
    | object fields => exact h.elim
  · rintro (⟨s, rfl⟩ | ⟨i, rfl, hword⟩)
    · trivial
    · rw [Number.word?] at hword
      split at hword
      · assumption
      · obtain ⟨⟩ := hword

/-- A value that is a key is the value of its key. -/
theorem IsKey.exists_key {v : Value} (h : v.IsKey) :
    ∃ key, IndexKey.ofValue? v = some key ∧ key.toValue = v := by
  obtain ⟨s, rfl⟩ | ⟨i, rfl, hword⟩ := isKey_iff.mp h
  · exact ⟨.text s, rfl, rfl⟩
  · refine ⟨.int i, ?_, rfl⟩
    rw [IndexKey.ofValue?, Number.truncated, hword]
    rfl

/-- **Keys are equal as they are the same**: texts by their characters, integers by value. -/
theorem IsKey.equals_iff {v w : Value} (hv : v.IsKey) (hw : w.IsKey) : v.equals w = true ↔ v = w := by
  obtain ⟨s, rfl⟩ | ⟨i, rfl, hi⟩ := isKey_iff.mp hv <;> obtain ⟨t, rfl⟩ | ⟨j, rfl, hj⟩ := isKey_iff.mp hw
  · simp [equals, agrees]
  · simp [equals, agrees]
  · simp [equals, agrees]
  · rw [equals, Number.compare, hi, hj, beq_iff_eq, Std.LawfulEqOrd.compare_eq_iff_eq, number.injEq,
      Number.int.injEq]

/-- A value that is a key equals itself as a number or a text. -/
theorem IsKey.equals_self {v : Value} (h : v.IsKey) : v.equals v = true := (h.equals_iff h).mpr rfl

instance : DecidablePred IsKey := fun v => by
  unfold IsKey
  split <;> infer_instance

end PathQuery.Value
