import PathQuery.Proofs.Filter.Failures
import PathQuery.Proofs.Text.Lines

/-!
# Proofs/Filter/Caret — where the marks under a line stand, and how many they are

       | left · own … right
       |      ^~~~

The span of an error starts at a place that has its line (`placed_of_error`), and the caret stands behind the
characters that are in front of the place.  The marks are counted in bytes, while the columns count characters.
So they are the characters of the span on its line, and one more for each further byte of these characters; a
span that goes on below its line adds the further bytes in front of it as well (`markCount_eq`).  Where there are
such bytes the marks are too many (`render_exact_iff`), and can reach beyond the end of the line
(`exists_marks_beyond`).
-/

namespace PathQuery.Filter

open Text (byteSize Untorn Seam Stands)

variable {start stop : Nat} {cs left front inner back taken after : List Char} {located : List Located}
  {t first last : Located} {token : Token} {c : Char} {rest : List Char} {source : String} {span : Span}

/-! ## Places between tokens -/

/-- A token ends with a bracket, a comma, a space or a quote, or it is a bare word, which takes all it can. -/
theorem cut_ends (h : cut c rest = .token token taken after) :
    (∃ d ∈ ['(', ')', ',', ' ', '\''], taken.getLast? = some d) ∨ ∀ d ∈ after.head?, isBare d = false := by
  have hcut := h ▸ cutOff_cut c rest
  cases hcut with
  | mark rest hm => exact .inl ⟨c, List.mem_append_left [' ', '\''] (List.mem_map_of_mem (f := Prod.fst) hm), rfl⟩
  | keyword => exact .inl ⟨' ', by decide, by rw [← List.cons_append, List.getLast?_concat]⟩
  | quoted => exact .inl ⟨'\'', by decide, by rw [← List.cons_append, List.getLast?_concat]⟩
  | bare rest => exact .inr (Text.head?_dropWhile isBare rest)

/-- No token ends between a carriage return and a line feed: a bare word takes both. -/
theorem untorn_of_cut (h : cut c rest = .token token taken after) : Untorn taken after := by
  intro hreturn hfeed
  rcases cut_ends h with ⟨d, hd, hlast⟩ | hbare
  · cases hlast.symm.trans hreturn
    exact absurd hd (by decide)
  · exact absurd (hbare _ hfeed) (by decide)

/-- Nor does any run of tokens. -/
theorem Cuts.exists_untorn (h : Cuts start cs located stop left) (hf : Untorn front cs) :
    ∃ done, cs = done ++ left ∧ stop = start + byteSize done ∧ Untorn (front ++ done) left := by
  induction h generalizing front with
  | nil => exact ⟨[], rfl, rfl, by rwa [List.append_nil]⟩
  | @cons start stop c rest taken after left token located hc _ ih =>
    obtain ⟨done, rfl, hstop, huntorn⟩ :=
      ih ((untorn_of_cut hc).append_left (cut_taken_ne_nil hc) front)
    refine ⟨taken ++ done, ?_, ?_, ?_⟩
    · rw [List.append_assoc, cut_append hc]
    · rw [hstop, Text.byteSize_append, Nat.add_assoc]
    · rwa [← List.append_assoc]

theorem Cuts.split {located more : List Located} (h : Cuts start cs (located ++ more) stop left) :
    ∃ middle between, Cuts start cs located middle between ∧ Cuts middle between more stop left := by
  induction located generalizing start cs with
  | nil => exact ⟨start, cs, .nil, h⟩
  | cons t located ih =>
    cases h with
    | cons hc h =>
      obtain ⟨middle, between, hfirst, hmore⟩ := ih h
      exact ⟨middle, between, .cons hc hfirst, hmore⟩

theorem Cuts.start_eq (h : Cuts start cs (t :: located) stop left) : t.span.start = start := by
  cases h with
  | cons => rfl

theorem Cuts.stop_eq (h : Cuts start cs located stop left) (hl : located.getLast? = some t) :
    t.span.stop = stop := by
  induction h with
  | nil => cases hl
  | @cons start stop c rest taken after left token located hc h ih =>
    cases h with
    | nil => cases hl; rfl
    | cons hc h => exact ih (by rwa [List.getLast?_cons_cons] at hl)

/-! ## Places of errors -/

/-- A span of a source: the text in front of it, its own characters and the text behind it.  It starts at a place
that has a line. -/
structure Placed (source : List Char) (span : Span) (front own back : List Char) : Prop where
  whole : source = front ++ (own ++ back)
  span_eq : span = ⟨byteSize front, byteSize (front ++ own)⟩
  seam : Seam front (own ++ back)

/-- The scanned tokens are taken off what is left of a source without the white space around it. -/
theorem exists_cuts_of_scan (h : scan source = .ok located) : ∃ front inner back stop,
    Text.Framed source.toList front inner back ∧ Cuts (byteSize front) inner located stop [] := by
  obtain ⟨back, hframed⟩ := Text.exists_framed source.toList
  obtain ⟨stop, hcuts⟩ := cuts_of_scanFrom h
  exact ⟨_, _, back, stop, hframed, hcuts⟩

theorem placed_of_scan {e : ScanError} (h : scan source = .error e) :
    ∃ front own back, Placed source.toList e.span front own back := by
  have hscanned := h ▸ scanned_scan source
  cases hscanned with
  | @stopped front done taken left back located _ hsource hcuts _ _ htaken hspan _ _ =>
    obtain ⟨done', hdone, -, huntorn⟩ := hcuts.exists_untorn hsource.untorn
    obtain rfl := List.append_cancel_right hdone
    refine ⟨front ++ done, taken, left ++ back, ?_, ?_, ?_, fun hnil => absurd hnil ?_⟩
    · rw [hsource.whole]
      simp only [List.append_assoc]
    · rw [hspan, List.append_assoc]
    · rw [← List.append_assoc]
      exact huntorn.append_right (List.append_ne_nil_of_left_ne_nil htaken left) back
    · simp [htaken]

/-- The tokens from one to another, in the source that they are taken off. -/
theorem Cuts.exists_own {i k : Nat} (h : Cuts start cs located stop []) (hf : Untorn front cs)
    (hfirst : located[i]? = some first) (hlast : located[i + k]? = some last) : ∃ done own rest,
    cs = done ++ (own ++ rest) ∧ own ≠ [] ∧ first.span.start = start + byteSize done ∧
      last.span.stop = start + byteSize (done ++ own) ∧ Untorn (front ++ done) (own ++ rest) := by
  obtain ⟨hi, rfl⟩ := List.getElem?_eq_some_iff.mp hfirst
  -- the tokens in front, those from the first to the last, and those behind
  have hparts : located.take i ++ ((located.drop i).take (k + 1) ++ (located.drop i).drop (k + 1)) = located := by
    rw [List.take_append_drop, List.take_append_drop]
  rw [← hparts] at h
  obtain ⟨middle, between, hdone, hrest⟩ := h.split
  obtain ⟨behind, rest, hown, -⟩ := hrest.split
  have hend : ((located.drop i).take (k + 1)).getLast? = some last := by
    rw [List.getLast?_take, if_neg (Nat.succ_ne_zero k), Nat.add_sub_cancel, List.getElem?_drop, hlast,
      Option.some_or]
  have hstop := hown.stop_eq hend
  rw [List.drop_eq_getElem_cons hi, List.take_succ_cons] at hown
  have hstart := hown.start_eq
  obtain ⟨done, rfl, rfl, huntorn⟩ := hdone.exists_untorn hf
  obtain ⟨own, rfl, rfl, htiles⟩ := hown.exists_taken
  refine ⟨done, own, rest, rfl, fun hnil => ?_, hstart, ?_, huntorn⟩
  · rw [hnil, Text.byteSize_nil, Nat.add_zero] at htiles
    exact absurd (htiles.eq_nil_iff.mpr rfl) (by simp)
  · rw [hstop, Text.byteSize_append, Nat.add_assoc]

/-- The span of the tokens from one to another. -/
theorem Cuts.exists_placed {i k : Nat} (h : Cuts (byteSize front) inner located stop [])
    (hf : Text.Framed cs front inner back) (hfirst : located[i]? = some first)
    (hlast : located[i + k]? = some last) :
    ∃ front own back, Placed cs (first.span.merge last.span) front own back := by
  obtain ⟨-, -, -, htiles⟩ := h.exists_taken
  obtain ⟨done, own, rest, rfl, hne, hstart, hstop, huntorn⟩ := h.exists_own hf.untorn hfirst hlast
  refine ⟨front ++ done, own, rest ++ back, ?_, ?_, ?_, fun hnil => absurd hnil ?_⟩
  · rw [hf.whole]
    simp only [List.append_assoc]
  · rw [htiles.merge_eq hfirst hlast, hstart, hstop, List.append_assoc, Text.byteSize_append front,
      Text.byteSize_append front]
  · rw [← List.append_assoc]
    exact huntorn.append_right (List.append_ne_nil_of_left_ne_nil hne rest) back
  · simp [hne]

/-- The end of the last token: the character in front of it is no white space. -/
theorem Cuts.placed_ending (h : Cuts (byteSize front) inner located stop [])
    (hf : Text.Framed cs front inner back) (hlast : located.getLast? = some last) :
    Placed cs (.empty last.span.stop) (front ++ inner) [] back := by
  have hstop := h.stop_eq hlast
  obtain ⟨done, hinner, rfl, htiles⟩ := h.exists_taken
  obtain rfl : inner = done := by rw [hinner, List.append_nil]
  obtain ⟨c, hc⟩ : ∃ c, inner.getLast? = some c := by
    refine Option.ne_none_iff_exists'.mp fun hnone => ?_
    rw [List.getLast?_eq_none_iff.mp hnone, Text.byteSize_nil, Nat.add_zero] at htiles
    rw [List.map_eq_nil_iff.mp (htiles.eq_nil_iff.mpr rfl)] at hlast
    cases hlast
  have hblank := hf.last c hc
  have hlastChar : (front ++ inner).getLast? = some c := List.mem_getLast?_append_of_mem_getLast? hc
  refine ⟨?_, ?_, fun hreturn => ?_, fun _ => ⟨c, hlastChar, ?_⟩⟩
  · rw [hf.whole, List.nil_append, List.append_assoc]
  · rw [hstop, List.append_nil, Text.byteSize_append]
    rfl
  · cases hlastChar.symm.trans hreturn
    exact absurd hblank (by decide)
  · rintro rfl
    exact absurd hblank (by decide)

theorem placed_of_parse {e : ParseError} {tokens : List Located} (hs : scan source = .ok tokens)
    (h : parse tokens = .error e) : ∃ front own back, Placed source.toList e.span front own back := by
  obtain ⟨front, inner, back, stop, hframed, hcuts⟩ := exists_cuts_of_scan hs
  cases (tells_of_parse h).pointsAt with
  | token hfirst hlast hspan =>
    rw [hspan]
    exact hcuts.exists_placed hframed hfirst hlast
  | ending ho hlast hspan =>
    rw [hspan]
    exact ⟨front ++ inner, [], back, hcuts.placed_ending hframed hlast⟩

/-- **The span of an error starts at a place that has its line.** -/
theorem placed_of_error {e : FilterError} (h : predicates source = .error e) :
    ∃ front own back, Placed source.toList e.span front own back := by
  rw [predicates] at h
  split at h
  · cases h
    exact placed_of_scan ‹_›
  · rename_i tokens hs
    cases hp : parse tokens with
    | error f =>
      rw [hp] at h
      cases h
      exact placed_of_parse hs hp
    | ok list =>
      rw [hp] at h
      cases h

/-! ## Lines with marks -/

namespace FilterError

/-- The words of an error above its line. -/
def headline : FilterError → String
  | scan e => e.message
  | parse e => e.fault.describe

/-- The hint of an error below its line. -/
def advice : FilterError → String
  | scan _ => ""
  | parse e =>
    match e.hint with
    | some hint => s!"   = hint: {hint}\n"
    | none => ""

/-- An error above the line of its place, with a caret below the line, behind as many blanks as there are
characters in front of the place. -/
def opening (e : FilterError) (left right : List Char) : String :=
  s!"error: {e.headline}\n  --> column {1 + left.length}\n" ++ "   |\n   | " ++ String.ofList (left ++ right) ++
    "\n   | " ++ repeated left.length ' ' ++ "^"

/-- The same with tildes behind the caret, which make it some marks, and the hint. -/
def drawn (e : FilterError) (left right : List Char) (marks : Nat) : String :=
  e.opening left right ++ repeated (marks - 1) '~' ++ "\n" ++ e.advice

end FilterError

theorem repeated_inj {head tail : String} {c : Char} {m n : Nat} :
    head ++ repeated m c ++ tail = head ++ repeated n c ++ tail ↔ m = n := by
  refine ⟨fun h => ?_, fun h => by rw [h]⟩
  have hlength := congrArg String.length h
  simp only [repeated, String.length_append, String.length_ofList, List.length_replicate] at hlength
  omega

/-- The marks of a drawing can be counted. -/
theorem FilterError.drawn_inj {e : FilterError} {left right : List Char} {m n : Nat} (hm : 1 ≤ m) (hn : 1 ≤ n) :
    e.drawn left right m = e.drawn left right n ↔ m = n := by
  rw [drawn, drawn, String.append_left_inj, repeated_inj]
  omega

variable {above right below own back : List Char}

theorem underline_of_stands {source : List Char} (h : Stands source span.start above left right below)
    (message : String) : underline source span message =
      s!"error: {message}\n  --> column {1 + left.length}\n" ++ "   |\n   | " ++ String.ofList (left ++ right) ++
        "\n   | " ++ repeated left.length ' ' ++ "^" ++
        repeated (markCount span.length (byteSize (left ++ right)) (1 + left.length) - 1) '~' ++ "\n" := by
  rw [underline, h.lineAndColumn_eq]
  simp only [Nat.add_sub_cancel_left, h.lines_getElem?]

/-- The caret of an error stands behind the characters in front of its place. -/
theorem render_eq_drawn {e : FilterError} (h : Stands source.toList e.span.start above left right below) :
    e.render source =
      e.drawn left right (markCount e.span.length (byteSize (left ++ right)) (1 + left.length)) := by
  cases e with
  | scan e =>
    have hs : Stands source.toList e.span.start above left right below := h
    exact (underline_of_stands hs e.message).trans String.append_empty.symm
  | parse e =>
    have hs : Stands source.toList e.span.start above left right below := h
    exact congrArg (· ++ FilterError.advice (.parse e)) (underline_of_stands hs e.fault.describe)

/-! ## How many marks -/

/-- The bytes that are counted as marks beyond the characters of a span on its line: the further bytes of these
characters; and, as far as the span goes on below the line, those of the characters in front of it. -/
def surplus (span : Span) (left own : List Char) : Nat :=
  (byteSize own - own.length) + min (span.length - byteSize own) (byteSize left - left.length)

/-- The characters of a span on its line are all of it, or all that is left of the line. -/
theorem Placed.before_eq (h : Placed cs span front own back) (hr : right ++ below = own ++ back) :
    byteSize (Text.before span.length right) ≤ span.length ∧
      (byteSize (Text.before span.length right) = span.length ∧ span.length ≤ byteSize right ∨
        Text.before span.length right = right) := by
  have hlength : span.length = byteSize own := by
    rw [h.span_eq, Span.length, Text.byteSize_append, Nat.add_sub_cancel_left]
  rw [hlength]
  rcases List.append_eq_append_iff.mp hr with ⟨more, rfl, -⟩ | ⟨more, rfl, -⟩
  · have hle : byteSize right ≤ byteSize (right ++ more) := by
      rw [Text.byteSize_append]
      exact Nat.le_add_right _ _
    rw [Text.before_of_le hle]
    exact ⟨hle, .inr rfl⟩
  · rw [Text.before_byteSize, Text.byteSize_append]
    exact ⟨Nat.le_refl _, .inl ⟨rfl, Nat.le_add_right _ _⟩⟩

/-- **The marks** are the characters of the span on its line and the surplus. -/
theorem Placed.markCount_eq (h : Placed cs span front own back) (hr : right ++ below = own ++ back)
    (left : List Char) :
    markCount span.length (byteSize (left ++ right)) (1 + left.length) =
      max 1 ((Text.before span.length right).length + surplus span left (Text.before span.length right)) := by
  obtain ⟨hle, hown⟩ := h.before_eq hr
  have hleft := Text.length_le_byteSize left
  have hbefore := Text.length_le_byteSize (Text.before span.length right)
  rw [markCount, surplus, Text.byteSize_append, Nat.add_sub_cancel_left]
  rcases hown with ⟨hall, hright⟩ | hrest
  · omega
  · rw [hrest] at hle hbefore ⊢
    omega

theorem surplus_eq_zero_iff {own : List Char} (h : byteSize own ≤ span.length) :
    surplus span left own = 0 ↔ (∀ c ∈ own, c.utf8Size = 1) ∧
      (span.length = byteSize own ∨ ∀ c ∈ left, c.utf8Size = 1) := by
  have hleft := Text.length_le_byteSize left
  have hown := Text.length_le_byteSize own
  rw [surplus, ← Text.byteSize_eq_length_iff, ← Text.byteSize_eq_length_iff]
  omega

/-- **The marks of an error** stand below its line, the caret behind the characters in front of the place where
the span starts.  They are the characters of the span on the line, or one, exactly if each of these characters
has one byte, and the span ends on the line or each character in front of it has one byte; or if no character of
the span is on the line and the surplus is one. -/
theorem render_exact_iff {e : FilterError} (h : predicates source = .error e) :
    (∃ above left right below, Stands source.toList e.span.start above left right below) ∧
    ∀ above left right below, Stands source.toList e.span.start above left right below →
      let own := Text.before e.span.length right
      e.render source = e.drawn left right (max 1 (own.length + surplus e.span left own)) ∧
      (e.render source = e.drawn left right (max 1 own.length) ↔
        (∀ c ∈ own, c.utf8Size = 1) ∧ (e.span.length = byteSize own ∨ ∀ c ∈ left, c.utf8Size = 1) ∨
          own = [] ∧ surplus e.span left own = 1) := by
  obtain ⟨front, own, back, hplaced⟩ := placed_of_error h
  have hstart : e.span.start = byteSize front := by rw [hplaced.span_eq]
  constructor
  · obtain ⟨above, left, right, below, hstands, -⟩ := hplaced.seam.exists_stands
    rw [← hplaced.whole, ← hstart] at hstands
    exact ⟨above, left, right, below, hstands⟩
  intro above left right below hstands
  have hr : right ++ below = own ++ back := hstands.rest_eq hplaced.whole hstart
  have hrender := (render_eq_drawn hstands).trans (congrArg (e.drawn left right) (hplaced.markCount_eq hr left))
  have hle := (hplaced.before_eq hr).1
  refine ⟨hrender, ?_⟩
  rw [hrender, FilterError.drawn_inj (Nat.le_max_left _ _) (Nat.le_max_left _ _), ← surplus_eq_zero_iff hle,
    ← List.length_eq_zero_iff]
  omega

/-- A word that takes the end of its line with it is underlined as far as the line goes. -/
theorem render_exact_iff_torn : ∃ e, predicates "(é\nlt 3\r\né)" = .error e ∧
    Stands "(é\nlt 3\r\né)".toList e.span.start "(é\n".toList "lt".toList " 3".toList "\r\né)".toList ∧
    e.span.length = 7 ∧ e.render "(é\nlt 3\r\né)" = e.drawn "lt".toList " 3".toList 2 := by
  have h : predicates "(é\nlt 3\r\né)" = .error (.scan ⟨.unknownWord, ⟨6, 13⟩, 3, "3\r\né)"⟩) := by
    decide +kernel
  have hstands : Stands "(é\nlt 3\r\né)".toList 6 "(é\n".toList "lt".toList " 3".toList "\r\né)".toList :=
    ⟨by decide, by decide, by decide, by decide, .returned _⟩
  obtain ⟨-, hrender⟩ := (render_exact_iff h).2 _ _ _ _ hstands
  have hown : ∀ c ∈ Text.before 7 " 3".toList, c.utf8Size = 1 := Text.byteSize_eq_length_iff.mp rfl
  have hleft : ∀ c ∈ "lt".toList, c.utf8Size = 1 := Text.byteSize_eq_length_iff.mp rfl
  exact ⟨_, h, hstands, rfl, hrender.mpr (.inl ⟨hown, .inr hleft⟩)⟩

/-- An accented letter is two marks, and the second of them stands beyond the end of the line. -/
theorem exists_marks_beyond : ∃ e, predicates "(a é" = .error e ∧
    Stands "(a é".toList e.span.start [] "(a".toList " é".toList [] ∧
    (Text.before e.span.length " é".toList).length = 2 ∧
    e.render "(a é" =
      "error: unknown operator at column 3: [é]\n  --> column 3\n   |\n   | (a é\n   |   ^~~\n" :=
  ⟨.scan ⟨.unknownWord, ⟨2, 5⟩, 3, "é"⟩, by decide +kernel,
    ⟨by decide, by decide, .inl rfl, by decide, .ending (by decide)⟩, by decide, by decide +kernel⟩

end PathQuery.Filter
