import PathQuery.Proofs.Filter.RoundTrip
import PathQuery.Proofs.Filter.Spans

/-!
# Proofs/Filter/Literals — a value with and without quotes

    (iri eq O'Brien)   ──▸   iri eq "O'Brien"   ◂──   (iri eq 'O''Brien')
    (iri eq a%2Fb)     ──▸   iri eq "a/b"
                             iri eq "a%2Fb"     ◂──   (iri eq 'a%2Fb')

A value between quotes is read as it was written.  A value without quotes is a bare word to the scanner, as
properties are, and so its encoded slashes are decoded.  Both spellings mean the same exactly if there is no
encoded slash (`predicates_unquoted`).
-/

namespace PathQuery.Filter

/-! ## Encoded slashes -/

theorem length_decodeSlashes_le (cs : List Char) : (decodeSlashes cs).length ≤ cs.length := by
  fun_induction decodeSlashes cs with
  | case1 => exact Nat.le_refl _
  | case2 | case3 | case4 =>
    simp only [List.length_cons]
    omega

/-- Decoding shortens what it changes. -/
theorem length_decodeSlashes_lt {cs : List Char} (h : "%2F".toList <:+: cs ∨ "%2f".toList <:+: cs) :
    (decodeSlashes cs).length < cs.length := by
  fun_induction decodeSlashes cs with
  | case1 => simp at h
  | case2 rest | case3 rest =>
    have := length_decodeSlashes_le rest
    simp only [List.length_cons]
    omega
  | case4 c rest hupper hlower ih =>
    have hrest : "%2F".toList <:+: rest ∨ "%2f".toList <:+: rest := by
      refine h.imp (fun h => ?_) (fun h => ?_)
      · refine (List.infix_cons_iff.mp h).resolve_left ?_
        rintro ⟨after, he⟩
        cases he
        exact hupper _ rfl rfl
      · refine (List.infix_cons_iff.mp h).resolve_left ?_
        rintro ⟨after, he⟩
        cases he
        exact hlower _ rfl rfl
    exact Nat.succ_lt_succ (ih hrest)

/-- A text is decoded already exactly if it has no encoded slash. -/
theorem decodePath_eq_self_iff {w : String} :
    decodePath w = w ↔ ¬ "%2F".toList <:+: w.toList ∧ ¬ "%2f".toList <:+: w.toList := by
  constructor
  · intro h
    rw [← not_or]
    intro hi
    have hlt := length_decodeSlashes_lt hi
    rw [← String.toList_ofList (l := decodeSlashes w.toList), ← decodePath, h] at hlt
    exact Nat.lt_irrefl _ hlt
  · intro h
    rw [decodePath, decodeSlashes_eq_self h, String.ofList_toList]

/-! ## Bare words -/

/-- A value that can stand without quotes: it has no character that ends a word, starts with no quote, has no
white space around it and has no meaning of its own. -/
structure IsUnquoted (w : String) : Prop where
  ne_empty : w ≠ ""
  bare : ∀ c ∈ w.toList, c ∉ ['(', ')', ',', ' ']
  first : ∀ c ∈ w.toList.head?, c ≠ '\'' ∧ Text.isBlank c = false
  last : ∀ c ∈ w.toList.getLast?, Text.isBlank c = false
  noCommand : ∀ c : Command, w ≠ c.word
  noBool : w ≠ "true" ∧ w ≠ "false"

-- Over the characters of the value, not over all characters there are.
instance (w : String) : Decidable (IsUnquoted w) :=
  decidable_of_iff
    (w ≠ "" ∧ (w.toList.all fun c => c ∉ ['(', ')', ',', ' ']) = true ∧
      (w.toList.head?.toList.all fun c => c ≠ '\'' ∧ Text.isBlank c = false) = true ∧
      (w.toList.getLast?.toList.all fun c => Text.isBlank c = false) = true ∧
      ([Command.substringOf, .startsWith, .endsWith].all (w ≠ ·.word)) = true ∧ w ≠ "true" ∧ w ≠ "false")
    ⟨fun ⟨hne, hbare, hfirst, hlast, hcommand, hbool⟩ =>
      { ne_empty := hne
        bare := by simpa using hbare
        first := by simpa using hfirst
        last := by simpa using hlast
        noCommand := by
          simp only [List.all_cons, List.all_nil, Bool.and_true, Bool.and_eq_true, decide_eq_true_eq] at hcommand
          rintro (_ | _ | _)
          exacts [hcommand.1, hcommand.2.1, hcommand.2.2]
        noBool := hbool },
      fun h => ⟨h.ne_empty, by simpa using h.bare, by simpa using h.first, by simpa using h.last,
        by simp [h.noCommand], h.noBool⟩⟩

variable {c d : Char} {cs rest after taken : List Char} {tokens : List Token} {p w property : String}

theorem IsUnquoted.bareToken_eq (h : IsUnquoted w) : bareToken w.toList = .word (decodePath w) := by
  simp only [bareToken, String.ofList_toList, Command.ofWord?_eq_none h.noCommand, h.noBool.1, h.noBool.2, if_false]

theorem Scans.unquoted (h : Scans (d :: after) tokens) (hw : IsUnquoted w) (hd : isBare d = false) :
    Scans (w.toList ++ d :: after) (.word (decodePath w) :: tokens) := by
  have htrim : Text.trim w.toList = w.toList := Text.trim_eq_self (fun c hc => (hw.first c hc).2) hw.last
  have := h.bare (fun he => hw.ne_empty (String.toList_eq_nil_iff.mp he))
    (fun c hc => isBare_iff.mpr (hw.bare c hc)) (fun c hc => (hw.first c hc).1) hd
  rwa [htrim, hw.bareToken_eq] at this

theorem keyword?_ne_word (word : String) : keyword? word ≠ some (.word p) := by
  rw [keyword?]
  cases Comparison.ofWord? word <;> cases Connective.ofWord? word <;> simp

/-- A bare word is all that no character ends. -/
theorem cut_eq_word (h : cut c rest = .token (.word p) taken after) : isBare c = true ∧ c ≠ '\'' ∧
    after = rest.dropWhile isBare ∧ bareToken (Text.trim (c :: rest.takeWhile isBare)) = .word p := by
  have hcut := cutOff_cut c rest
  generalize hw : cut c rest = w at h hcut
  cases hcut with
  | mark rest hm =>
    cases h
    simp at hm
  | keyword after _ hk =>
    cases h
    exact absurd hk (keyword?_ne_word _)
  | unknown => cases h
  | unspaced => cases h
  | quoted => cases h
  | unterminated => cases h
  | bare rest hbare hquote =>
    simp only [Cut.token.injEq] at h
    exact ⟨hbare, hquote, h.2.2.symm, h.1⟩

/-- What is scanned as one bare word is scanned so before any character that ends a word. -/
theorem Scans.oneWord (hs : Scans (d :: after) tokens) (h : Scans cs [.word p]) (hd : isBare d = false) :
    Scans (cs ++ d :: after) (.word p :: tokens) := by
  obtain ⟨located, hscan, ht⟩ := h [] 0
  obtain ⟨⟨token, span⟩, _, rfl, rfl, hnil⟩ := List.map_eq_cons_iff.mp ht
  obtain rfl := List.map_eq_nil_iff.mp hnil
  obtain ⟨stop, hcuts⟩ := cuts_of_scanFrom hscan
  cases hcuts with
  | @cons _ _ c rest taken left _ _ _ hc hcuts =>
    cases hcuts
    obtain ⟨hbare, hquote, hleft, hp⟩ := cut_eq_word hc
    have hrest : ∀ x ∈ rest, isBare x = true := List.dropWhile_eq_nil_iff.mp hleft.symm
    rw [List.takeWhile_eq_self_iff.mpr hrest] at hp
    have hall : ∀ x ∈ c :: rest, isBare x = true := List.forall_mem_cons.mpr ⟨hbare, hrest⟩
    have := hs.bare (List.cons_ne_nil c rest) hall (fun x hx => by cases hx; exact hquote) hd
    rwa [hp] at this

/-! ## Both spellings -/

/-- A comparison in brackets. -/
def comparisonText (property : String) (op : Comparison) (literal : String) : String :=
  "(" ++ property ++ " " ++ op.word ++ " " ++ literal ++ ")"

/-- A comparison is parsed as its property and what its literal is scanned as. -/
theorem predicates_comparisonText {literal value : String} {token : Token} (op : Comparison)
    (hp : Scans property.toList [.word p]) (hl : Scans (literal.toList ++ [')']) [token, .closeBracket])
    (hv : token.literal? = some value) :
    predicates (comparisonText property op literal) = .ok [⟨p, .compare op, value⟩] := by
  have hscans : Scans (comparisonText property op literal).toList
      [.openBracket, .word p, .operator op, token, .closeBracket] := by
    have := ((hl.operator op).oneWord hp rfl).openBracket
    simpa [comparisonText] using this
  have htrim : Text.trim (comparisonText property op literal).toList =
      (comparisonText property op literal).toList :=
    Bracketed.trim_eq ⟨(property ++ " " ++ op.word ++ " " ++ literal).toList, by simp [comparisonText]⟩
  obtain ⟨located, hscan, ht⟩ := hscans (comparisonText property op literal).toList
    (Text.byteSize (Text.leadingBlanks (Text.trimEnd (comparisonText property op literal).toList)))
  have hparse : parse located = .ok [⟨p, .compare op, value⟩] := by
    rw [parse_reads, ht]
    exact reads_bracketed (.comparison (literal?_eq_some_iff.mp hv)) (reads_nil.mpr ⟨rfl, rfl⟩)
  rw [predicates, scan, htrim, hscan]
  simp only [hparse]
  rfl

theorem predicates_bare (op : Comparison) (hp : Scans property.toList [.word p]) (hw : IsUnquoted w) :
    predicates (comparisonText property op w) = .ok [⟨p, .compare op, decodePath w⟩] :=
  predicates_comparisonText op hp (scans_nil.closeBracket.unquoted hw rfl) rfl

theorem predicates_quote (op : Comparison) (hp : Scans property.toList [.word p]) (w : String) :
    predicates (comparisonText property op (quote w)) = .ok [⟨p, .compare op, w⟩] := by
  have hscans : Scans ((quote w).toList ++ [')']) [.quoted w, .closeBracket] := by
    rw [toList_quote]
    exact scans_nil.closeBracket.quoted w (by simp)
  exact predicates_comparisonText op hp hscans rfl

/-- **A value without quotes** makes a predicate, as it does between quotes, where it is read as it was written.
The two predicates are the same exactly if no slash in the value is encoded. -/
theorem predicates_unquoted (op : Comparison) (hp : Scans property.toList [.word p]) (hw : IsUnquoted w) :
    predicates (comparisonText property op w) = .ok [⟨p, .compare op, decodePath w⟩] ∧
    predicates (comparisonText property op (quote w)) = .ok [⟨p, .compare op, w⟩] ∧
    (predicates (comparisonText property op w) = predicates (comparisonText property op (quote w)) ↔
      ¬ "%2F".toList <:+: w.toList ∧ ¬ "%2f".toList <:+: w.toList) := by
  have hbare := predicates_bare op hp hw
  have hquote := predicates_quote op hp w
  refine ⟨hbare, hquote, ?_⟩
  rw [hbare, hquote, ← decodePath_eq_self_iff]
  simp

theorem scans_iri : Scans "iri".toList [.word "iri"] := scans_nil.cons rfl

/-- Quotes and a percent sign within a value are read as they are. -/
theorem predicates_unquoted_name : Scans "iri".toList [.word "iri"] ∧ IsUnquoted "O'Brien's%2" ∧
    predicates "(iri eq O'Brien's%2)" = .ok [⟨"iri", .compare .eq, "O'Brien's%2"⟩] ∧
    predicates "(iri eq 'O''Brien''s%2')" = .ok [⟨"iri", .compare .eq, "O'Brien's%2"⟩] := by
  have hw : IsUnquoted "O'Brien's%2" := by decide
  have hbare : comparisonText "iri" .eq "O'Brien's%2" = "(iri eq O'Brien's%2)" := by decide
  have hquote : comparisonText "iri" .eq (quote "O'Brien's%2") = "(iri eq 'O''Brien''s%2')" := by decide
  obtain ⟨-, hvalue, hsame⟩ := predicates_unquoted .eq scans_iri hw
  have hboth := hsame.mpr (by decide)
  rw [hquote] at hvalue hboth
  rw [hbare] at hboth
  exact ⟨scans_iri, hw, hboth.trans hvalue, hvalue⟩

/-- **An encoded slash** in a value is decoded where the value has no quotes, and only there. -/
theorem unquoted_slash_decoded : Scans "iri".toList [.word "iri"] ∧ IsUnquoted "a%2Fb" ∧
    predicates "(iri eq a%2Fb)" = .ok [⟨"iri", .compare .eq, "a/b"⟩] ∧
    predicates "(iri eq 'a%2Fb')" = .ok [⟨"iri", .compare .eq, "a%2Fb"⟩] :=
  ⟨scans_iri, by decide, by decide +kernel, by decide +kernel⟩

end PathQuery.Filter
