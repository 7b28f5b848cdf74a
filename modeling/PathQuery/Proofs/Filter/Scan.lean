import Mathlib.Data.List.Infix
import Mathlib.Tactic.Common
import PathQuery.Filter.Scan
import PathQuery.Proofs.Except

/-!
# Proofs/Filter/Scan — what is scanned off the front of a text

`Scans` tells the tokens of a text and leaves out where they stand.  A text that starts with a token is
scanned as that token and the tokens after it, for each kind of token: brackets and commas, an operator or
`and` with its spaces (`Scans.operator`), a literal in doubled quotes (`Scans.quoted`), a command, and a
bare word that is none of the words with a meaning (`Scans.word`).
-/

namespace PathQuery.Filter

/-! ## Tokens without their places -/

/-- A text is scanned as some tokens, wherever it stands in a source. -/
def Scans (cs : List Char) (tokens : List Token) : Prop :=
  ∀ source offset, ∃ located, scanFrom source offset cs = .ok located ∧ located.map (·.token) = tokens

variable {c : Char} {front rest after : List Char} {t : Token} {tokens : List Token}

theorem scans_nil : Scans [] [] := fun source offset => ⟨[], by rw [scanFrom], rfl⟩

/-- A token at the front comes before the tokens after it. -/
theorem Scans.cons {taken : List Char} (h : Scans after tokens)
    (hc : cut c rest = .token t taken after) : Scans (c :: rest) (t :: tokens) := by
  intro source offset
  obtain ⟨located, hs, ht⟩ := h source (offset + Text.byteSize taken)
  refine ⟨⟨t, ⟨offset, offset + Text.byteSize taken⟩⟩ :: located, ?_, ?_⟩
  · rw [scanFrom]
    split
    · rename_i t' taken' after' hc'
      cases hc.symm.trans hc'
      simp only [hs]
      rfl
    · rename_i hc'
      obtain ⟨⟩ := hc.symm.trans hc'
  · rw [List.map_cons, ht]

theorem Scans.openBracket (h : Scans after tokens) : Scans ('(' :: after) (.openBracket :: tokens) :=
  h.cons rfl

theorem Scans.closeBracket (h : Scans after tokens) : Scans (')' :: after) (.closeBracket :: tokens) :=
  h.cons rfl

theorem Scans.comma (h : Scans after tokens) : Scans (',' :: after) (.comma :: tokens) :=
  h.cons rfl

/-! ## Words between spaces -/

theorem Scans.operator (h : Scans after tokens) (op : Comparison) :
    Scans (' ' :: (op.word.toList ++ ' ' :: after)) (.operator op :: tokens) := by
  cases op <;> exact h.cons rfl

theorem Scans.and (h : Scans after tokens) :
    Scans (" and ".toList ++ after) (.binary .and :: tokens) := h.cons rfl

/-! ## Literals -/

/-- A literal ends at the first quote that no quote follows. -/
theorem cutLiteral_doubleQuotes (text : List Char) (h : after.head? ≠ some '\'') :
    cutLiteral (doubleQuotes text ++ '\'' :: after) = some (text, after) := by
  induction text with
  | nil =>
    cases after with
    | nil => rfl
    | cons d after =>
      have hd : d ≠ '\'' := fun hd => h (congrArg some hd)
      simp [doubleQuotes, cutLiteral, hd]
  | cons c rest ih =>
    rw [doubleQuotes]
    split
    · rename_i hc
      simp [cutLiteral, ih, hc]
    · rename_i hc
      simp [cutLiteral, ih, hc]

/-- A literal whose quotes are doubled is read back. -/
theorem Scans.quoted (h : Scans after tokens) (text : String) (ha : after.head? ≠ some '\'') :
    Scans ('\'' :: (doubleQuotes text.toList ++ '\'' :: after)) (.quoted text :: tokens) := by
  have hcut : cut '\'' (doubleQuotes text.toList ++ '\'' :: after) =
      .token (.quoted text) ('\'' :: (doubleQuotes text.toList ++ ['\''])) after := by
    simp [cut, cutLiteral_doubleQuotes text.toList ha]
  exact h.cons hcut

/-! ## Bare words -/

theorem Scans.command (h : Scans ('(' :: after) tokens) (c : Command) :
    Scans (c.word.toList ++ '(' :: after) (.command c :: tokens) := by
  cases c <;> exact h.cons rfl

theorem Scans.bool (h : Scans (')' :: after) tokens) (b : Bool) :
    Scans ((if b then "true" else "false").toList ++ ')' :: after) (.bool b :: tokens) := by
  cases b <;> exact h.cons rfl

theorem isBare_iff : isBare c = true ↔ c ∉ ['(', ')', ',', ' '] := by
  simp only [isBare, Bool.and_eq_true, bne_iff_ne, List.mem_cons, List.not_mem_nil, or_false, not_or]
  tauto

/-- What no character ends is scanned as one word, before a character that ends it. -/
theorem Scans.bare {d : Char} {word : List Char} (h : Scans (d :: after) tokens) (hne : word ≠ [])
    (hall : ∀ c ∈ word, isBare c = true) (hfirst : ∀ c ∈ word.head?, c ≠ '\'') (hd : isBare d = false) :
    Scans (word ++ d :: after) (bareToken (Text.trim word) :: tokens) := by
  obtain ⟨c, rest, rfl⟩ := List.exists_cons_of_ne_nil hne
  have hbare := isBare_iff.mp (hall c (.head _))
  simp only [List.mem_cons, List.not_mem_nil, or_false, not_or] at hbare
  have hquote : c ≠ '\'' := hfirst c rfl
  have hrest : ∀ x ∈ rest, isBare x = true := fun x hx => hall x (.tail _ hx)
  have htake : (rest ++ d :: after).takeWhile isBare = rest := by
    rw [List.takeWhile_append_of_pos hrest, List.takeWhile_cons_of_neg (by simp [hd]), List.append_nil]
  have hdrop : (rest ++ d :: after).dropWhile isBare = d :: after := by
    rw [List.dropWhile_append_of_pos hrest, List.dropWhile_cons_of_neg (by simp [hd])]
  have hcut : cut c (rest ++ d :: after) = .token (bareToken (Text.trim (c :: rest))) (c :: rest) (d :: after) := by
    simp only [cut, hbare, hquote, htake, hdrop, if_false]
  exact h.cons hcut

/-- A bare word without a meaning of its own: it has no character that ends a word, starts with no quote,
has no white space around it and no slash that is written as `%2F`. -/
structure IsWord (w : String) : Prop where
  ne_empty : w ≠ ""
  bare : ∀ c ∈ w.toList, c ∉ ['(', ')', ',', ' ']
  first : ∀ c ∈ w.toList.head?, c ≠ '\'' ∧ Text.isBlank c = false
  last : ∀ c ∈ w.toList.getLast?, Text.isBlank c = false
  decoded : ¬ "%2F".toList <:+: w.toList ∧ ¬ "%2f".toList <:+: w.toList
  noCommand : ∀ c : Command, w ≠ c.word
  noBool : w ≠ "true" ∧ w ≠ "false"

/-- A text without encoded slashes is decoded already. -/
theorem decodeSlashes_eq_self {cs : List Char} (h : ¬ "%2F".toList <:+: cs ∧ ¬ "%2f".toList <:+: cs) :
    decodeSlashes cs = cs := by
  fun_induction decodeSlashes cs with
  | case1 => rfl
  | case2 rest => exact absurd (List.prefix_append _ rest).isInfix h.1
  | case3 rest => exact absurd (List.prefix_append _ rest).isInfix h.2
  | case4 c rest _ _ ih =>
    exact congrArg _ (ih ⟨fun hi => h.1 (List.infix_cons hi), fun hi => h.2 (List.infix_cons hi)⟩)

theorem Command.ofWord?_eq_none {w : String} (h : ∀ c : Command, w ≠ c.word) : ofWord? w = none := by
  rw [ofWord?, List.find?_eq_none]
  intro c _ hc
  exact h c (eq_of_beq hc).symm

theorem IsWord.bareToken_eq {w : String} (h : IsWord w) : bareToken w.toList = .word w := by
  have hd : decodePath w = w := by
    rw [decodePath, decodeSlashes_eq_self h.decoded, String.ofList_toList]
  simp only [bareToken, String.ofList_toList, Command.ofWord?_eq_none h.noCommand, h.noBool.1,
    h.noBool.2, if_false, hd]

/-- A word before a character that ends it is scanned as it is. -/
theorem Scans.word {d : Char} {w : String} (h : Scans (d :: after) tokens) (hw : IsWord w)
    (hd : isBare d = false) : Scans (w.toList ++ d :: after) (.word w :: tokens) := by
  have htrim : Text.trim w.toList = w.toList := Text.trim_eq_self (fun x hx => (hw.first x hx).2) hw.last
  have := h.bare (fun he => hw.ne_empty (String.toList_eq_nil_iff.mp he))
    (fun c hc => isBare_iff.mpr (hw.bare c hc)) (fun c hc => (hw.first c hc).1) hd
  rwa [htrim, hw.bareToken_eq] at this

end PathQuery.Filter
