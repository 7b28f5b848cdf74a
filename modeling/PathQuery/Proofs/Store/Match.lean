import PathQuery.Proofs.Text.LowerCase
import PathQuery.Store.Match

/-!
# Proofs/Store/Match — a text that is looked for as it is written

    field  ΟΔΟΣ ΜΟΥ                 field  ΟΔΟΣ
    needle ΟΔΟΣ       found         needle    Σ     not found

Case is disregarded by comparing lower cases, that of the field and that of the needle.  So a needle that stands
in a field as it is written is found unless it has another lower case there than alone, which only a capital sigma
can give it (`text_commands_of_written`).
-/

namespace PathQuery.Condition

open PathQuery.Filter (Command)
open PathQuery.Text

variable {doc : Document} {field text needle : String}

theorem text_holdsAt (command : Command) (needle : String) (h : doc.lookup field = some (.string text)) :
    (Condition.text command needle).holdsAt (doc.lookup field) =
      finds command (lowerCase text.toList) (lowerCase needle.toList) := by
  rw [h]
  rfl

/-- A needle without capital sigmas is found wherever it is written. -/
theorem text_holdsAt_of_finds {command : Command} (h : doc.lookup field = some (.string text))
    (hneedle : 'Σ' ∉ needle.toList) (hfinds : finds command text.toList needle.toList = true) :
    (Condition.text command needle).holdsAt (doc.lookup field) = true := by
  rw [text_holdsAt command needle h]
  cases command with
  | substringOf =>
    obtain ⟨before, after, he⟩ := (occursIn_iff ..).mp hfinds
    rw [he]
    exact occursIn_lowerCase (.of_not_mem hneedle)
  | startsWith =>
    obtain ⟨after, he⟩ := List.isPrefixOf_iff_prefix.mp hfinds
    rw [← he]
    exact isPrefixOf_lowerCase_iff.mpr (.of_not_mem hneedle)
  | endsWith =>
    obtain ⟨before, he⟩ := List.isSuffixOf_iff_suffix.mp hfinds
    rw [← he]
    exact isSuffixOf_lowerCase_iff.mpr (.of_not_mem hneedle)

theorem substringOf_holdsAt_iff {before after : String}
    (h : doc.lookup field = some (.string (before ++ needle ++ after))) :
    (Condition.text .substringOf needle).holdsAt (doc.lookup field) = true ↔
      occursIn (lowerCase needle.toList)
        (lowerCase (before.toList ++ (needle.toList ++ after.toList))) = true := by
  rw [text_holdsAt _ _ h, finds, String.toList_append, String.toList_append, List.append_assoc]

/-- A field of one's own choice. -/
theorem lookup_singleton (field : String) (v : Value) : Document.lookup [(field, v)] field = some v := by
  simp [Document.lookup, Fields.get?]

/-- **A needle that stands in a field as it is written.**  At the start and at the end it is found exactly if the
capital sigmas of the needle end words there as they do in the needle alone, and anywhere it is found if they do.
It is found in every field that it is a part of exactly if they do so whatever stands around it. -/
theorem text_commands_of_written (needle : String) :
    (∀ (doc : Document) field after, doc.lookup field = some (.string (needle ++ after)) →
      ((Condition.text .startsWith needle).holdsAt (doc.lookup field) = true ↔
        SigmasAgree [] needle.toList after.toList)) ∧
    (∀ (doc : Document) field before, doc.lookup field = some (.string (before ++ needle)) →
      ((Condition.text .endsWith needle).holdsAt (doc.lookup field) = true ↔
        SigmasAgree before.toList needle.toList [])) ∧
    (∀ (doc : Document) field before after, doc.lookup field = some (.string (before ++ needle ++ after)) →
      SigmasAgree before.toList needle.toList after.toList →
        (Condition.text .substringOf needle).holdsAt (doc.lookup field) = true) ∧
    ((∀ (doc : Document) field before after, doc.lookup field = some (.string (before ++ needle ++ after)) →
        (Condition.text .substringOf needle).holdsAt (doc.lookup field) = true) ↔
      ∀ before after, SigmasAgree before needle.toList after) := by
  refine ⟨fun doc field after h => ?_, fun doc field before h => ?_, fun doc field before after h hagree => ?_, ?_⟩
  · rw [text_holdsAt _ _ h, finds, String.toList_append, isPrefixOf_lowerCase_iff]
  · rw [text_holdsAt _ _ h, finds, String.toList_append, isSuffixOf_lowerCase_iff]
  · rw [substringOf_holdsAt_iff h]
    exact occursIn_lowerCase hagree
  · rw [← occursIn_lowerCase_iff]
    constructor
    · intro hall before after
      have hlookup := lookup_singleton "Town" (.string (String.ofList before ++ needle ++ String.ofList after))
      have hholds := (substringOf_holdsAt_iff hlookup).mp (hall _ _ _ _ hlookup)
      rwa [String.toList_ofList, String.toList_ofList] at hholds
    · intro hall doc field before after h
      exact (substringOf_holdsAt_iff h).mpr (hall _ _)

/-- The end of a street is found, and it is the end of the word. -/
theorem text_commands_of_written_street :
    Document.lookup [("Town", .string "ΟΔΟΣ")] "Town" = some (.string "ΟΔΟΣ") ∧
    SigmasAgree ['Ο'] ['Δ', 'Ο', 'Σ'] [] ∧
    (Condition.text .endsWith "ΔΟΣ").holdsAt (Document.lookup [("Town", .string "ΟΔΟΣ")] "Town") = true ∧
    (Condition.text .substringOf "ΔΟΣ").holdsAt (Document.lookup [("Town", .string "ΟΔΟΣ")] "Town") = true := by
  have hlookup := lookup_singleton "Town" (.string "ΟΔΟΣ")
  have hagree : SigmasAgree ['Ο'] ['Δ', 'Ο', 'Σ'] [] := lowerBetween_eq_iff.mp (by decide +kernel)
  obtain ⟨-, hends, hcontains, -⟩ := text_commands_of_written "ΔΟΣ"
  exact ⟨hlookup, hagree, (hends _ "Town" "Ο" hlookup).mpr hagree, hcontains _ "Town" "Ο" "" hlookup hagree⟩

/-- **A sigma that ends a word** is not found by a needle in which it does not, nor the other way round. -/
theorem sigma_missed :
    (finds .endsWith "ΟΔΟΣ".toList "Σ".toList = true ∧
      (Condition.text .endsWith "Σ").holdsAt (Document.lookup [("Town", .string "ΟΔΟΣ")] "Town") = false) ∧
    (finds .substringOf "ΟΔΟΣ".toList "Σ".toList = true ∧
      (Condition.text .substringOf "Σ").holdsAt (Document.lookup [("Town", .string "ΟΔΟΣ")] "Town") = false) ∧
    (finds .startsWith "ΑΣΑ".toList "ΑΣ".toList = true ∧
      (Condition.text .startsWith "ΑΣ").holdsAt (Document.lookup [("Town", .string "ΑΣΑ")] "Town") = false) := by
  decide +kernel

end PathQuery.Condition
