import PathQuery.Proofs.Filter.Grammar
import PathQuery.Proofs.Filter.Scan

/-!
# Proofs/Filter/RoundTrip — a filter that was written is read back

    predicates ──write──▸ text ──scan──▸ tokens ──parse──▸ predicates

A predicate is written in brackets with its value between quotes, and each quote in the value is doubled.
Whatever the values hold, the text is scanned as the tokens of the predicates, and these are parsed as the
predicates that were written (`predicates_intercalate`).
-/

namespace PathQuery.Filter

/-! ## Writing -/

/-- A text between quotes, each quote in it doubled. -/
def quote (text : String) : String := "'" ++ String.ofList (doubleQuotes text.toList) ++ "'"

/-- The texts that a predicate is written as.  The arguments of a command are in either order. -/
inductive Predicate.Written : Predicate → String → Prop where
  | comparison (property value : String) (op : Comparison) : Written ⟨property, .compare op, value⟩
      ("(" ++ property ++ " " ++ op.word ++ " " ++ quote value ++ ")")
  | propertyFirst (property value : String) (c : Command) : Written ⟨property, .command c, value⟩
      ("(" ++ c.word ++ "(" ++ property ++ "," ++ quote value ++ ") eq true)")
  | literalFirst (property value : String) (c : Command) : Written ⟨property, .command c, value⟩
      ("(" ++ c.word ++ "(" ++ quote value ++ "," ++ property ++ ") eq true)")

theorem toList_quote (text : String) (after : List Char) :
    (quote text).toList ++ after = '\'' :: (doubleQuotes text.toList ++ '\'' :: after) := by
  simp [quote]

variable {p : Predicate} {text : String} {after : List Char} {tokens : List Token}

/-! ## Scanning -/

/-- The end of a written command. -/
theorem Scans.answer (h : Scans after tokens) : Scans (')' :: (" eq true)".toList ++ after))
    (.closeBracket :: .operator .eq :: .bool true :: .closeBracket :: tokens) :=
  ((h.closeBracket.bool true).operator .eq).closeBracket

/-- A written predicate is scanned as its tokens between brackets. -/
theorem Predicate.Written.scans (h : p.Written text) (hp : IsWord p.property) (hs : Scans after tokens) :
    ∃ spelled, p.Spelled spelled ∧
      Scans (text.toList ++ after) (.openBracket :: (spelled ++ .closeBracket :: tokens)) := by
  cases h with
  | comparison property value op =>
    refine ⟨_, .comparison (.inr rfl), ?_⟩
    have := (((hs.closeBracket.quoted value (by simp)).operator op).word hp rfl).openBracket
    simpa [toList_quote] using this
  | propertyFirst property value c =>
    refine ⟨_, @Spelled.command c property value _ _ .eq true (.inl ⟨rfl, rfl⟩), ?_⟩
    have := ((((hs.answer.quoted value (by simp)).comma).word hp rfl).openBracket.command c).openBracket
    simpa [toList_quote] using this
  | literalFirst property value c =>
    refine ⟨_, @Spelled.command c property value _ _ .eq true (.inr ⟨rfl, rfl⟩), ?_⟩
    have := ((((hs.answer.word hp rfl).comma).quoted value (by simp)).openBracket.command c).openBracket
    simpa [toList_quote] using this

/-! ## Parsing -/

variable {ps : List Predicate} {texts : List String}

/-- A predicate in brackets comes before those after it. -/
theorem reads_bracketed {spelled : List Token} (hp : p.Spelled spelled) (h : Reads 0 tokens ps) :
    Reads 0 (.openBracket :: (spelled ++ .closeBracket :: tokens)) (p :: ps) := by
  obtain ⟨t, front, rfl⟩ := (Piece.Spelled.predicate hp).exists_cons
  refine reads_openBracket.mpr ⟨⟨t, rfl, (startsPredicate_iff (.predicate hp)).mpr (.predicate p)⟩, ?_⟩
  exact reads_cons.mpr ⟨_, front, _, rfl, .predicate hp, ps, reads_closeBracket.mpr ⟨0, rfl, h⟩, rfl⟩

/-- Written predicates with `and` between them are scanned as tokens that are parsed as these predicates. -/
theorem exists_scans (h : List.Forall₂ Predicate.Written ps texts) (hp : ∀ p ∈ ps, IsWord p.property) :
    ∃ tokens, Scans (" and ".intercalate texts).toList tokens ∧ Reads 0 tokens ps := by
  induction h with
  | nil => exact ⟨[], scans_nil, reads_nil.mpr ⟨rfl, rfl⟩⟩
  | @cons p text ps texts hw hrest ih =>
    obtain ⟨tokens, hs, hr⟩ := ih fun q hq => hp q (.tail _ hq)
    cases hrest with
    | nil =>
      obtain ⟨spelled, hspelled, hscan⟩ := hw.scans (hp p (.head _)) scans_nil
      refine ⟨_, ?_, reads_bracketed hspelled (reads_nil.mpr ⟨rfl, rfl⟩)⟩
      simpa using hscan
    | cons =>
      obtain ⟨spelled, hspelled, hscan⟩ := hw.scans (hp p (.head _)) hs.and
      refine ⟨_, ?_, reads_bracketed hspelled (reads_and.mpr hr)⟩
      simpa [String.intercalate_cons_cons] using hscan

/-! ## White space around a filter -/

/-- A text from an opening to a closing bracket. -/
def Bracketed (cs : List Char) : Prop := ∃ inner, cs = '(' :: (inner ++ [')'])

theorem Predicate.Written.bracketed (h : p.Written text) : Bracketed text.toList := by
  cases h with
  | comparison property value op =>
    exact ⟨(property ++ " " ++ op.word ++ " " ++ quote value).toList, by simp⟩
  | propertyFirst property value c =>
    exact ⟨(c.word ++ "(" ++ property ++ "," ++ quote value ++ ") eq true").toList, by simp⟩
  | literalFirst property value c =>
    exact ⟨(c.word ++ "(" ++ quote value ++ "," ++ property ++ ") eq true").toList, by simp⟩

theorem Bracketed.append {cs ds : List Char} (hc : Bracketed cs) (hd : Bracketed ds)
    (between : List Char) : Bracketed (cs ++ between ++ ds) := by
  obtain ⟨inner, rfl⟩ := hc
  obtain ⟨inner', rfl⟩ := hd
  exact ⟨inner ++ ')' :: (between ++ '(' :: inner'), by simp⟩

theorem Bracketed.trim_eq {cs : List Char} (h : Bracketed cs) : Text.trim cs = cs := by
  obtain ⟨inner, rfl⟩ := h
  refine Text.trim_eq_self (fun c hc => ?_) (fun c hc => ?_)
  · cases hc
    rfl
  · rw [← List.cons_append, List.getLast?_concat] at hc
    cases hc
    rfl

theorem bracketed_intercalate (h : List.Forall₂ Predicate.Written ps texts) (hne : ps ≠ []) :
    Bracketed (" and ".intercalate texts).toList := by
  induction h with
  | nil => exact absurd rfl hne
  | @cons p text ps texts hw hrest ih =>
    cases hrest with
    | nil => simpa using hw.bracketed
    | cons =>
      have := hw.bracketed.append (ih (List.cons_ne_nil _ _)) " and ".toList
      simpa [String.intercalate_cons_cons] using this

theorem trim_intercalate (h : List.Forall₂ Predicate.Written ps texts) :
    Text.trim (" and ".intercalate texts).toList = (" and ".intercalate texts).toList := by
  cases ps with
  | nil =>
    cases h
    rfl
  | cons p ps => exact (bracketed_intercalate h (List.cons_ne_nil p ps)).trim_eq

/-! ## Round trip -/

/-- **What was written is read back**: any predicates whose properties are bare words, each in any of its
written forms, with `and` between them. -/
theorem predicates_intercalate (h : List.Forall₂ Predicate.Written ps texts)
    (hp : ∀ p ∈ ps, IsWord p.property) : predicates (" and ".intercalate texts) = .ok ps := by
  obtain ⟨tokens, hs, hr⟩ := exists_scans h hp
  let cs := (" and ".intercalate texts).toList
  obtain ⟨located, hscan, rfl⟩ := hs cs (Text.byteSize (Text.leadingBlanks (Text.trimEnd cs)))
  have hparse : parse located = .ok ps := parse_reads.mpr hr
  have htokens : scan (" and ".intercalate texts) = .ok located := by
    rw [scan, trim_intercalate h, hscan]
  rw [predicates, htokens]
  simp only [hparse]
  rfl

/-- A literal with brackets, a comma and quotes of its own, before a command whose literal comes first. -/
theorem predicates_of_labels :
    predicates "(label eq 'it''s (a, ''b'')') and (startswith(' and ''',iri) eq true)" =
      .ok [⟨"label", .compare .eq, "it's (a, 'b')"⟩, ⟨"iri", .command .startsWith, " and '"⟩] := by
  have hlabel : IsWord "label" := ⟨by decide, by simp, by simp [Text.isBlank],
    by simp [Text.isBlank], by decide, fun c => by cases c <;> decide, by decide⟩
  have hiri : IsWord "iri" := ⟨by decide, by simp, by simp [Text.isBlank],
    by simp [Text.isBlank], by decide, fun c => by cases c <;> decide, by decide⟩
  have htext : " and ".intercalate
      ["(" ++ "label" ++ " " ++ Comparison.eq.word ++ " " ++ quote "it's (a, 'b')" ++ ")",
       "(" ++ Command.startsWith.word ++ "(" ++ quote " and '" ++ "," ++ "iri" ++ ") eq true)"] =
      "(label eq 'it''s (a, ''b'')') and (startswith(' and ''',iri) eq true)" := by decide
  rw [← htext]
  exact predicates_intercalate (.cons (.comparison _ _ _) (.cons (.literalFirst _ _ _) .nil))
    (by simp [hlabel, hiri])

end PathQuery.Filter
