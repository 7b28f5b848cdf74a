import PathQuery.Proofs.Except
import PathQuery.Proofs.Text.Offset
import PathQuery.Filter.Scan

/-!
# Proofs/Filter/Spans — tokens cover the text, and an error starts where they end

    front │ token │ token │ … │ token │ back         front │ token │ … │ token │ span of the error │ …

The scanner takes tokens off the front of a text, one after the other (`Cuts`).  So their spans lie side by
side and none is empty (`Tiles`): up to the end of the text, or up to the characters that are no token.  The
white space at both ends of a source belongs to no span (`scanned_scan`).
-/

namespace PathQuery.Filter

/-! ## Spans side by side -/

/-- Spans from one offset to another, none of them empty, each starting where the one before it stops. -/
inductive Tiles : Nat → Nat → List Span → Prop where
  | nil {offset : Nat} : Tiles offset offset []
  | cons {start middle stop : Nat} {spans : List Span} (hlt : start < middle)
    (h : Tiles middle stop spans) : Tiles start stop (⟨start, middle⟩ :: spans)

variable {start stop offset : Nat} {spans : List Span} {cs left : List Char} {located : List Located}

theorem Tiles.le (h : Tiles start stop spans) : start ≤ stop := by
  induction h with
  | nil => exact Nat.le_refl _
  | cons hlt _ ih => omega

theorem Tiles.eq_nil_iff (h : Tiles start stop spans) : spans = [] ↔ start = stop := by
  cases h with
  | nil => simp
  | cons hlt h =>
    have := h.le
    simp only [reduceCtorEq, false_iff]
    omega

/-! ## One token after the other -/

/-- The tokens that are taken off the front of a text, from one offset to another, and the text that is left. -/
inductive Cuts : Nat → List Char → List Located → Nat → List Char → Prop where
  | nil {offset : Nat} {cs : List Char} : Cuts offset cs [] offset cs
  | cons {start stop : Nat} {c : Char} {rest taken after left : List Char} {token : Token}
    {located : List Located} (hc : cut c rest = .token token taken after)
    (h : Cuts (start + Text.byteSize taken) after located stop left) :
    Cuts start (c :: rest) (⟨token, ⟨start, start + Text.byteSize taken⟩⟩ :: located) stop left

theorem byteSize_pos {cs : List Char} (h : cs ≠ []) : 0 < Text.byteSize cs := by
  cases cs with
  | nil => exact absurd rfl h
  | cons c cs =>
    have := c.utf8Size_pos
    rw [Text.byteSize_cons]
    omega

/-- What was taken off stands in front of what is left, and its spans cover it. -/
theorem Cuts.exists_taken (h : Cuts start cs located stop left) : ∃ done, cs = done ++ left ∧
    stop = start + Text.byteSize done ∧ Tiles start stop (located.map (·.span)) := by
  induction h with
  | nil => exact ⟨[], rfl, rfl, .nil⟩
  | @cons start stop c rest taken after left token located hc _ ih =>
    obtain ⟨done, rfl, hstop, htiles⟩ := ih
    have hpos := byteSize_pos (cut_taken_ne_nil hc)
    refine ⟨taken ++ done, ?_, ?_, .cons (by omega) htiles⟩
    · rw [List.append_assoc, cut_append hc]
    · rw [hstop, Text.byteSize_append, Nat.add_assoc]

/-- A scan that succeeds takes tokens off until nothing is left. -/
theorem cuts_of_scanFrom {source : List Char} (h : scanFrom source start cs = .ok located) :
    ∃ stop, Cuts start cs located stop [] := by
  fun_induction scanFrom source start cs generalizing located with
  | case1 =>
    cases h
    exact ⟨_, .nil⟩
  | case2 start c rest token taken after hc =>
    rename_i stop ih
    obtain ⟨located, hs, rfl⟩ := map_eq_ok.mp h
    obtain ⟨stop, hcuts⟩ := ih hs
    exact ⟨stop, .cons hc hcuts⟩
  | case3 => cases h

/-- A scan that fails takes tokens off up to characters that are no token. -/
theorem exists_fault_of_scanFrom {source : List Char} {e : ScanError} (h : scanFrom source start cs = .error e) :
    ∃ located stop c rest fault taken, Cuts start cs located stop (c :: rest) ∧
      cut c rest = .fault fault taken ∧
      e = .ofSpan source fault ⟨stop, stop + Text.byteSize taken⟩ (String.ofList (Text.trim taken)) := by
  fun_induction scanFrom source start cs with
  | case1 => cases h
  | case2 start c rest token taken after hc =>
    rename_i stop ih
    obtain ⟨located, stop, d, rest', fault, taken', hcuts, hfault, he⟩ := ih (map_eq_error.mp h)
    exact ⟨_, stop, d, rest', fault, taken', .cons hc hcuts, hfault, he⟩
  | case3 start c rest fault taken hc =>
    cases h
    exact ⟨[], start, c, rest, fault, taken, .nil, hc, rfl⟩

/-- Characters that are no token: a quote that is never closed, or a word after a space. -/
theorem cut_fault {c : Char} {rest taken : List Char} {fault : ScanFault} (h : cut c rest = .fault fault taken) :
    (fault = .unterminatedString ∨ fault = .unknownWord) ∧ taken ≠ [] ∧ ∃ after, c :: rest = taken ++ after := by
  have hcut := h ▸ cutOff_cut c rest
  cases hcut with
  | unknown after => exact ⟨.inr rfl, List.cons_ne_nil _ _, after, by simp⟩
  | unspaced => exact ⟨.inr rfl, List.cons_ne_nil _ _, [], (List.append_nil _).symm⟩
  | unterminated => exact ⟨.inl rfl, List.cons_ne_nil _ _, [], (List.append_nil _).symm⟩

/-! ## The whole source -/

/-- What a scan answers.  Either the spans of the tokens cover the source but for the white space around it; or
the error tells the characters after the tokens in front. -/
inductive Scanned (source : List Char) : Except ScanError (List Located) → Prop where
  | covered {front inner back : List Char} {located : List Located}
    (hsource : Text.Framed source front inner back)
    (htiles : Tiles (Text.byteSize front) (Text.byteSize (front ++ inner)) (located.map (·.span)))
    (hblank : inner = [] → located = []) : Scanned source (.ok located)
  | stopped {front done taken left back : List Char} {located : List Located} {e : ScanError}
    (hsource : Text.Framed source front (done ++ (taken ++ left)) back)
    (hcuts : Cuts (Text.byteSize front) (done ++ (taken ++ left)) located e.span.start (taken ++ left))
    (htiles : Tiles (Text.byteSize front) e.span.start (located.map (·.span)))
    (hfault : e.fault = .unterminatedString ∨ e.fault = .unknownWord)
    (htaken : taken ≠ [])
    (hspan : e.span = ⟨Text.byteSize (front ++ done), Text.byteSize (front ++ (done ++ taken))⟩)
    (hword : e.word.toList = Text.trim taken)
    (hcolumn : e.column = 1 + (Text.lastLine (front ++ done)).length) : Scanned source (.error e)

/-- **A scan covers the source or tells the first place where it cannot.** -/
theorem scanned_scan (source : String) : Scanned source.toList (scan source) := by
  obtain ⟨back, hframed⟩ := Text.exists_framed source.toList
  have hscan : scan source = scanFrom source.toList
      (Text.byteSize (Text.leadingBlanks (Text.trimEnd source.toList))) (Text.trim source.toList) := rfl
  generalize Text.leadingBlanks (Text.trimEnd source.toList) = front at hframed hscan
  generalize Text.trim source.toList = inner at hframed hscan
  rw [hscan]
  cases hs : scanFrom source.toList (Text.byteSize front) inner with
  | ok located =>
    obtain ⟨stop, hcuts⟩ := cuts_of_scanFrom hs
    obtain ⟨done, hdone, rfl, htiles⟩ := hcuts.exists_taken
    rw [List.append_nil] at hdone
    subst hdone
    rw [← Text.byteSize_append] at htiles
    refine .covered hframed htiles fun hinner => ?_
    have := htiles.eq_nil_iff.mpr (by rw [hinner, List.append_nil])
    exact List.map_eq_nil_iff.mp this
  | error e =>
    obtain ⟨located, stop, c, rest, fault, taken, hcuts, hcut, rfl⟩ := exists_fault_of_scanFrom hs
    obtain ⟨hfault, htaken, left, hleft⟩ := cut_fault hcut
    obtain ⟨done, rfl, rfl, htiles⟩ := hcuts.exists_taken
    rw [hleft] at hframed hcuts
    refine .stopped hframed hcuts htiles hfault htaken ?_ String.toList_ofList ?_
    · simp only [ScanError.ofSpan, Text.byteSize_append, Nat.add_assoc]
    · have hcolumn := Text.lineAndColumn_snd (front ++ done) ((taken ++ left) ++ back)
      rwa [List.append_assoc, ← List.append_assoc done, ← hframed.whole, Text.byteSize_append] at hcolumn

end PathQuery.Filter
