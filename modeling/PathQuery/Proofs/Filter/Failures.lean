import PathQuery.Proofs.Filter.Brackets
import PathQuery.Proofs.Filter.Spans

/-!
# Proofs/Filter/Failures — the token that a parse error tells

An error names a token by its place in the list, or the end of the list, and its span is the span of what it
names (`PointsAt`).  Where some brackets are never closed it names the last of them (`Opened.lastUnclosed`).
Each reader of the parser stands at a place in the list: it is given the number of tokens in front, and what it
complains of is counted from there.
-/

namespace PathQuery.Filter

/-- How many tokens an error reaches beyond the first that it names: a command whose arguments are wrong is told
both of them, with the comma between them. -/
def ParseFault.reach : ParseFault → Nat
  | .wrongArguments .. => 2
  | _ => 0

/-- What an error names in a list of tokens. -/
inductive PointsAt (tokens : List Located) (e : ParseError) : Prop where
  | token {first last : Located} (hfirst : tokens[e.offset]? = some first)
    (hlast : tokens[e.offset + e.fault.reach]? = some last) (hs : e.span = first.span.merge last.span)
  | ending {last : Located} (ho : e.offset = tokens.length) (hlast : tokens.getLast? = some last)
    (hs : e.span = .empty last.span.stop)

/-- An error within or before a predicate. -/
structure Stops (tokens : List Located) (e : ParseError) : Prop where
  pointsAt : PointsAt tokens e
  fault : e.fault ≠ .unclosedOpen

/-- Where the last of some tokens stops. -/
def EndsAt (tokens : List Located) (ending : Nat) : Prop :=
  ∃ last, tokens.getLast? = some last ∧ last.span.stop = ending

variable {all done rest : List Located} {t : Located} {ending pos : Nat} {e : ParseError}

theorem Span.merge_self (s : Span) : s.merge s = s := by simp [merge]

/-! ## Readers of one predicate

A reader that has taken `front` complains of what comes next. -/

/-- An error that names the next token, or the end of the list where there is none. -/
theorem stops_next (front : List Located) (hend : EndsAt all ending) (hall : all = done ++ (front ++ rest))
    (hpos : pos = done.length) (ho : e.offset = pos + front.length)
    (hs : e.span = (rest.head?.map (·.span)).getD (.empty ending)) (hr : e.fault.reach = 0)
    (hf : e.fault ≠ .unclosedOpen) : Stops all e := by
  rw [← List.append_assoc] at hall
  have hoffset : e.offset = (done ++ front).length := by rw [ho, hpos, List.length_append]
  cases rest with
  | nil =>
    obtain ⟨last, hlast, rfl⟩ := hend
    rw [List.append_nil] at hall
    exact ⟨.ending (hall ▸ hoffset) hlast hs, hf⟩
  | cons t rest =>
    have ht : all[e.offset]? = some t := by simp [hall, hoffset]
    exact ⟨.token ht (by rwa [hr]) (hs.trans t.span.merge_self.symm), hf⟩

theorem stops_unexpected (front : List Located) (expected : String) (hend : EndsAt all ending)
    (hall : all = done ++ (front ++ rest)) (hpos : pos = done.length) :
    Stops all (unexpected ending (pos + front.length) expected rest) := by
  cases rest with
  | nil => exact stops_next front hend hall hpos rfl rfl rfl nofun
  | cons t rest => exact stops_next front hend hall hpos rfl rfl rfl nofun

theorem stops_nothingOpened (front : List Located) (hend : EndsAt all ending)
    (hall : all = done ++ (front ++ rest)) (hpos : pos = done.length) :
    Stops all (nothingOpened ending (pos + front.length) rest) := by
  cases rest with
  | nil => exact stops_next front hend hall hpos rfl rfl rfl nofun
  | cons t rest => exact stops_next front hend hall hpos rfl rfl rfl nofun

theorem stops_afterProperty {property : String} (hend : EndsAt all ending) (hall : all = done ++ rest)
    (hpos : pos = done.length) (h : afterProperty ending pos property rest = .error e) : Stops all e := by
  unfold afterProperty at h
  split at h
  · rename_i op span tokens
    split at h
    · cases h
      exact stops_unexpected [⟨.operator op, span⟩] _ hend hall hpos
    · split at h
      · cases h
      · cases h
        exact stops_unexpected [⟨.operator op, span⟩] _ hend hall hpos
  · cases h
    exact stops_unexpected [] _ hend hall hpos

theorem stops_afterArguments {predicate : Predicate} (front : List Located) (hend : EndsAt all ending)
    (hall : all = done ++ (front ++ rest)) (hpos : pos = done.length)
    (h : afterArguments ending (pos + front.length) predicate rest = .error e) : Stops all e := by
  unfold afterArguments at h
  split at h
  · cases h
  · rename_i op span tokens _
    cases h
    have hall' : all = done ++ ((front ++ [⟨.operator op, span⟩]) ++ tokens) := by simp [hall]
    have := stops_unexpected _ "boolean" hend hall' hpos
    rwa [List.length_append] at this
  · cases h
    exact stops_unexpected front _ hend hall hpos

theorem stops_afterCommand {c : Command} (hend : EndsAt all ending) (hall : all = done ++ rest)
    (hpos : pos = done.length) (h : afterCommand ending pos c rest = .error e) : Stops all e := by
  unfold afterCommand at h
  split at h
  · rename_i opening first comma second closing tokens
    split at h
    · exact stops_afterArguments
        [⟨.openBracket, opening⟩, first, ⟨.comma, comma⟩, second, ⟨.closeBracket, closing⟩] hend hall hpos h
    · cases h
      have hfirst : all[pos + 1]? = some first := by simp [hall, hpos]
      have hsecond : all[pos + 1 + 2]? = some second := by simp [hall, hpos, Nat.add_assoc]
      exact ⟨.token hfirst hsecond rfl, nofun⟩
  · rename_i opening first comma second tokens _
    cases h
    exact stops_unexpected [⟨.openBracket, opening⟩, first, ⟨.comma, comma⟩, second] _ hend hall hpos
  · rename_i opening first comma
    cases h
    exact stops_unexpected [⟨.openBracket, opening⟩, first, ⟨.comma, comma⟩] _ hend hall hpos
  · rename_i opening first tokens _ _ _
    cases h
    exact stops_unexpected [⟨.openBracket, opening⟩, first] _ hend hall hpos
  · rename_i opening
    cases h
    exact stops_unexpected [⟨.openBracket, opening⟩] _ hend hall hpos
  · cases h
    exact stops_unexpected [] _ hend hall hpos

/-! ## The parser -/

/-- What an error tells of a list of tokens: the place that it names, and which bracket it is if one is not closed. -/
structure Tells (tokens : List Located) (e : ParseError) : Prop where
  pointsAt : PointsAt tokens e
  lastUnclosed : e.fault = .unclosedOpen → ∃ pieces i, Spells pieces (tokens.map (·.token)) ∧
    Partnered pieces ∧ LastUnclosed pieces i ∧ Spells (pieces.take i) ((tokens.take e.offset).map (·.token))

theorem Stops.tells (h : Stops all e) : Tells all e := ⟨h.pointsAt, fun hf => absurd hf h.fault⟩

variable {opened outer : List Opening} {pieces : List Piece} {o : Opening} {p : Predicate} {front : List Located}

/-- Tokens that leave a bracket open. -/
theorem Opened.tells (h : Opened (o :: outer) all pieces) (hpart : Partnered pieces) :
    Tells all { fault := .unclosedOpen, span := o.span, offset := o.offset } := by
  obtain ⟨t, ht, hs⟩ : ∃ t, all[o.offset]? = some t ∧ t.span = o.span := by
    cases h with
    | @inside _ done within t => exact ⟨t, by simp, rfl⟩
  obtain ⟨i, hlast, hbefore⟩ := h.lastUnclosed
  exact ⟨.token ht ht (hs ▸ t.span.merge_self.symm), fun _ => ⟨pieces, i, h.spells, hpart, hlast, hbefore⟩⟩

theorem Opened.and (h : Opened opened done pieces) (ht : t.token = .binary .and) :
    Opened opened (done ++ [t]) (pieces ++ [.and]) := by
  refine h.append (spells_singleton ?_) (balanced_singleton nofun nofun)
  rw [List.map_singleton, ht]
  exact .and

theorem Opened.predicate (h : Opened opened done pieces) (hp : p.Spelled (t.token :: front.map (·.token))) :
    Opened opened (done ++ t :: front) (pieces ++ [.predicate p]) :=
  h.append (spells_singleton (.predicate hp)) (balanced_singleton nofun nofun)

/-- The place behind the tokens of a predicate. -/
theorem pos_of_read (hpos : pos = done.length) :
    pos + 1 + ((front ++ rest).length - rest.length) = (done ++ t :: front).length := by
  simp only [List.length_append, List.length_cons]
  omega

/-- **A failed parse tells where and what**, from any place in the list on. -/
theorem tells_of_parseFrom (hend : EndsAt all ending) (hall : all = done ++ rest) (hpos : pos = done.length)
    (hopened : Opened opened done pieces) (hpart : Partnered pieces)
    (h : parseFrom ending pos opened rest = .error e) : Tells all e := by
  fun_induction parseFrom ending pos opened rest generalizing done pieces with
  | case1 => cases h
  | case2 pos o outer =>
    cases h
    rw [List.append_nil] at hall
    exact (hall ▸ hopened).tells hpart
  | case3 pos opened t tail property ht p after hread ih =>
    obtain ⟨front, rfl, hp⟩ := (afterProperty_eq_ok_iff ending (pos + 1)).mp hread
    rw [← ht] at hp
    exact ih (by simp [hall]) (pos_of_read hpos) (hopened.predicate hp) (hpart.concat (by simp)) (map_eq_error.mp h)
  | case4 pos opened t tail property ht e' hread =>
    cases h
    have hbehind : all = done ++ [t] ++ tail := by simp [hall]
    exact (stops_afterProperty hend hbehind (by simp [hpos]) hread).tells
  | case5 pos opened t tail c ht p after hread ih =>
    obtain ⟨front, rfl, hp⟩ := (afterCommand_eq_ok_iff ending (pos + 1)).mp hread
    rw [← ht] at hp
    exact ih (by simp [hall]) (pos_of_read hpos) (hopened.predicate hp) (hpart.concat (by simp)) (map_eq_error.mp h)
  | case6 pos opened t tail c ht e' hread =>
    cases h
    have hbehind : all = done ++ [t] ++ tail := by simp [hall]
    exact (stops_afterCommand hend hbehind (by simp [hpos]) hread).tells
  | case7 pos opened t ht =>
    cases h
    exact (stops_nothingOpened [t] hend hall hpos).tells
  | case8 pos opened t ht next tail hstart ih =>
    subst hpos
    exact ih (by simp [hall]) (by simp) (hopened.open ht) (hpart.concat (by simp)) h
  | case9 pos opened t ht next tail hstart =>
    cases h
    exact (stops_nothingOpened [t] hend hall hpos).tells
  | case10 pos t tail ht =>
    cases h
    exact (stops_next [] hend hall hpos rfl rfl rfl (by rintro ⟨⟩)).tells
  | case11 pos t tail ht o outer ih =>
    exact ih (by simp [hall]) (by simp [hpos]) (hopened.close ht) (hopened.partnered_close hpart) h
  | case12 pos opened t tail ht ih =>
    exact ih (by simp [hall]) (by simp [hpos]) (hopened.and ht) (hpart.concat (by simp)) h
  | case13 pos opened t tail ht =>
    cases h
    exact (stops_next [] hend hall hpos rfl rfl rfl (by rintro ⟨⟩)).tells
  | case14 pos opened t tail hw hc ho hb ha =>
    cases h
    exact (stops_unexpected [] _ hend hall hpos).tells

theorem tells_of_parse (h : parse all = .error e) : Tells all e := by
  have hend : EndsAt all ((all.getLast?.map (·.span.stop)).getD 0) := by
    cases hlast : all.getLast? with
    | none =>
      rw [List.getLast?_eq_none_iff.mp hlast, parse, parseFrom] at h
      cases h
    | some last => exact ⟨last, hlast, rfl⟩
  exact tells_of_parseFrom hend (List.nil_append all).symm rfl (.outside .nil balanced_nil) partnered_nil h

/-! ## Places in the source -/

theorem Tiles.le_of_mem {start stop : Nat} {spans : List Span} (h : Tiles start stop spans) :
    ∀ s ∈ spans, start ≤ s.start ∧ s.start < s.stop := by
  induction h with
  | nil => nofun
  | @cons start middle stop spans hlt _ ih =>
    intro s hs
    rcases List.mem_cons.mp hs with rfl | hs
    · exact ⟨Nat.le_refl _, hlt⟩
    · have := ih s hs
      omega

theorem Tiles.pairwise {start stop : Nat} {spans : List Span} (h : Tiles start stop spans) :
    spans.Pairwise fun a b => a.stop ≤ b.start := by
  induction h with
  | nil => exact .nil
  | cons _ h ih => exact .cons (fun s hs => (h.le_of_mem s hs).1) ih

/-- The span of two tokens of a source starts where the first does and stops where the second does. -/
theorem Tiles.merge_eq {start stop i k : Nat} {first last : Located}
    (h : Tiles start stop (all.map (·.span))) (hfirst : all[i]? = some first) (hlast : all[i + k]? = some last) :
    first.span.merge last.span = ⟨first.span.start, last.span.stop⟩ := by
  cases k with
  | zero =>
    cases hfirst.symm.trans hlast
    exact first.span.merge_self
  | succ k =>
    have hmem : ∀ {j : Nat} {t : Located}, all[j]? = some t → t.span.start < t.span.stop := fun ht =>
      (h.le_of_mem _ (List.mem_map_of_mem (List.mem_of_getElem? ht))).2
    obtain ⟨hi, rfl⟩ := List.getElem?_eq_some_iff.mp hfirst
    obtain ⟨hk, rfl⟩ := List.getElem?_eq_some_iff.mp hlast
    have hle := List.pairwise_iff_getElem.mp (List.pairwise_map.mp h.pairwise) i (i + (k + 1)) hi hk (by omega)
    have := hmem hfirst
    have := hmem hlast
    simp only [Span.merge, Span.mk.injEq]
    omega

/-- **A parse error points at a token.**  It names one of the tokens of the source, and its span is the span of
this token (of both arguments of a command, where they are wrong); or it names the end, and its span is empty
behind the last token.  An opening bracket that it calls unclosed is the last one that no closing bracket closes,
where every closing bracket closes one. -/
theorem parse_error_pinpoints {source : String} {tokens : List Located} (hs : scan source = .ok tokens)
    (he : parse tokens = .error e) :
    e.offset ≤ tokens.length ∧
    (∀ t, tokens[e.offset]? = some t → ∃ last, tokens[e.offset + e.fault.reach]? = some last ∧
      e.span = ⟨t.span.start, last.span.stop⟩) ∧
    (e.offset = tokens.length → ∃ last, tokens.getLast? = some last ∧ e.span = .empty last.span.stop) ∧
    (e.fault = .unclosedOpen → ∃ pieces i, Spells pieces (tokens.map (·.token)) ∧ Partnered pieces ∧
      LastUnclosed pieces i ∧ Spells (pieces.take i) ((tokens.take e.offset).map (·.token))) := by
  obtain ⟨stop, hcuts⟩ := cuts_of_scanFrom hs
  obtain ⟨done, -, -, htiles⟩ := hcuts.exists_taken
  obtain ⟨hpoints, hunclosed⟩ := tells_of_parse he
  cases hpoints with
  | @token first last hfirst hlast hspan =>
    have hlt := (List.getElem?_eq_some_iff.mp hfirst).1
    refine ⟨hlt.le, fun t ht => ?_, fun hend => by omega, hunclosed⟩
    cases hfirst.symm.trans ht
    exact ⟨last, hlast, hspan.trans (htiles.merge_eq hfirst hlast)⟩
  | @ending last ho hlast hspan =>
    refine ⟨ho.le, fun t ht => ?_, fun _ => ⟨last, hlast, hspan⟩, hunclosed⟩
    have := (List.getElem?_eq_some_iff.mp ht).1
    omega

/-- Of two brackets that are open at the end the second is named. -/
theorem parse_error_pinpoints_second : ∃ tokens e, scan "(a eq 1) and ((b eq 2" = .ok tokens ∧
    parse tokens = .error e ∧ e.offset = 7 ∧ e.span = ⟨14, 15⟩ ∧ e.fault = .unclosedOpen ∧
    ∃ pieces i, Spells pieces (tokens.map (·.token)) ∧ Partnered pieces ∧ LastUnclosed pieces i := by
  obtain ⟨tokens, hs, he⟩ : ∃ tokens, scan "(a eq 1) and ((b eq 2" = .ok tokens ∧
      parse tokens = .error { fault := .unclosedOpen, span := ⟨14, 15⟩, offset := 7 } :=
    ⟨[⟨.openBracket, ⟨0, 1⟩⟩, ⟨.word "a", ⟨1, 2⟩⟩, ⟨.operator .eq, ⟨2, 6⟩⟩, ⟨.word "1", ⟨6, 7⟩⟩,
      ⟨.closeBracket, ⟨7, 8⟩⟩, ⟨.binary .and, ⟨8, 13⟩⟩, ⟨.openBracket, ⟨13, 14⟩⟩, ⟨.openBracket, ⟨14, 15⟩⟩,
      ⟨.word "b", ⟨15, 16⟩⟩, ⟨.operator .eq, ⟨16, 20⟩⟩, ⟨.word "2", ⟨20, 21⟩⟩], by decide +kernel, by decide +kernel⟩
  obtain ⟨-, -, -, hunclosed⟩ := parse_error_pinpoints hs he
  obtain ⟨pieces, i, hspells, hpart, hlast, -⟩ := hunclosed rfl
  exact ⟨tokens, _, hs, he, rfl, rfl, rfl, pieces, i, hspells, hpart, hlast⟩

end PathQuery.Filter
