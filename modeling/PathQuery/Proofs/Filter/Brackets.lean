import PathQuery.Proofs.Filter.Grammar

/-!
# Proofs/Filter/Brackets — brackets and the ones that close them

    ( … ( … ) … ( … ( …
    0   1   2   3   4        1 is closed by 2; 0, 3 and 4 are never closed, and 4 is the last of these

A closing bracket belongs to an opening one if what stands between them is balanced (`Partners`).  While pieces
are read, the opening brackets that have no partner yet are kept, each with the pieces before it (`Opened`); so
the one on top is the last that is never closed (`Opened.lastUnclosed`).
-/

namespace PathQuery.Filter

variable {pieces more xs ys : List Piece} {piece : Piece} {depth i j : Nat}

/-! ## Balanced pieces -/

/-- Pieces one after the other close what both close. -/
theorem Closes.append {outer : Nat} (hx : Closes depth xs) (hy : Closes outer ys) :
    Closes (depth + outer) (xs ++ ys) := by
  induction xs generalizing depth with
  | nil =>
    obtain rfl := closes_nil.mp hx
    rwa [Nat.zero_add]
  | cons piece xs ih =>
    by_cases ho : piece = .opening
    · subst ho
      have := ih (closes_opening.mp hx)
      rw [Nat.add_right_comm] at this
      exact closes_opening.mpr this
    by_cases hc : piece = .closing
    · subst hc
      obtain ⟨inner, rfl, hin⟩ := closes_closing.mp hx
      exact closes_closing.mpr ⟨inner + outer, Nat.add_right_comm .., ih hin⟩
    · exact (closes_other ho hc).mpr (ih ((closes_other ho hc).mp hx))

theorem balanced_nil : Balanced [] := closes_nil.mpr rfl

theorem Balanced.append (hx : Balanced xs) (hy : Balanced ys) : Balanced (xs ++ ys) := Closes.append hx hy

theorem balanced_singleton (ho : piece ≠ .opening) (hc : piece ≠ .closing) : Balanced [piece] :=
  (closes_other ho hc).mpr balanced_nil

theorem Balanced.wrap (h : Balanced pieces) : Balanced (.opening :: (pieces ++ [.closing])) :=
  closes_opening.mpr (Closes.append h (closes_closing.mpr ⟨0, rfl, balanced_nil⟩))

/-- Where more is closed than was opened, there is a first bracket that closes too much. -/
theorem exists_closing {front : List Piece} (hf : front <+: pieces)
    (hlt : depth + front.count .opening < front.count .closing) :
    ∃ inner after, pieces = inner ++ .closing :: after ∧ Closes depth inner := by
  induction pieces generalizing depth front with
  | nil => simp [List.prefix_nil.mp hf] at hlt
  | cons piece pieces ih =>
    rcases List.prefix_cons_iff.mp hf with rfl | ⟨front, rfl, hfront⟩
    · simp at hlt
    by_cases ho : piece = .opening
    · subst ho
      have hdeeper : depth + 1 + front.count .opening < front.count .closing := by
        simp at hlt
        omega
      obtain ⟨inner, after, rfl, hin⟩ := ih hfront hdeeper
      exact ⟨.opening :: inner, after, rfl, closes_opening.mpr hin⟩
    by_cases hc : piece = .closing
    · subst hc
      cases depth with
      | zero => exact ⟨[], pieces, rfl, balanced_nil⟩
      | succ depth =>
        have hhigher : depth + front.count .opening < front.count .closing := by
          simp at hlt
          omega
        obtain ⟨inner, after, rfl, hin⟩ := ih hfront hhigher
        exact ⟨.closing :: inner, after, rfl, closes_closing.mpr ⟨depth, rfl, hin⟩⟩
    · simp only [List.count_cons_of_ne ho, List.count_cons_of_ne hc] at hlt
      obtain ⟨inner, after, rfl, hin⟩ := ih hfront hlt
      exact ⟨piece :: inner, after, rfl, (closes_other ho hc).mpr hin⟩

/-! ## Partners -/

/-- The piece at `j` is a bracket that closes the one at `i`. -/
def Partners (pieces : List Piece) (i j : Nat) : Prop :=
  ∃ before inner after, pieces = before ++ .opening :: (inner ++ .closing :: after) ∧ Balanced inner ∧
    i = before.length ∧ j = (before ++ .opening :: inner).length

/-- Every closing bracket closes some opening one. -/
def Partnered (pieces : List Piece) : Prop := ∀ j, pieces[j]? = some .closing → ∃ i, Partners pieces i j

/-- The piece at `i` is an opening bracket that nothing closes, and every opening bracket after it is closed. -/
structure LastUnclosed (pieces : List Piece) (i : Nat) : Prop where
  opening : pieces[i]? = some .opening
  unclosed : ∀ j, ¬ Partners pieces i j
  last : ∀ k, i < k → pieces[k]? = some .opening → ∃ j, Partners pieces k j

theorem Partners.append (h : Partners pieces i j) (more : List Piece) : Partners (pieces ++ more) i j := by
  obtain ⟨before, inner, after, rfl, hin, hi, hj⟩ := h
  exact ⟨before, inner, after ++ more, by simp, hin, hi, hj⟩

theorem exists_split (h : pieces[i]? = some piece) :
    ∃ before after, pieces = before ++ piece :: after ∧ i = before.length := by
  obtain ⟨hlt, rfl⟩ := List.getElem?_eq_some_iff.mp h
  refine ⟨pieces.take i, pieces.drop (i + 1), ?_, (List.length_take_of_le hlt.le).symm⟩
  rw [List.getElem_cons_drop, List.take_append_drop]

/-- Every opening bracket of balanced pieces is closed. -/
theorem Balanced.exists_partners (h : Balanced pieces) (before : List Piece)
    (hi : pieces[i]? = some .opening) : ∃ j, Partners (before ++ pieces) (before.length + i) j := by
  obtain ⟨front, after, rfl, rfl⟩ := exists_split hi
  have hopened := h.opened front (List.prefix_append ..)
  have hclosed := h.closed
  simp at hopened hclosed
  have hlt : 0 + after.count .opening < after.count .closing := by omega
  obtain ⟨inner, rest, rfl, hin⟩ := exists_closing (List.prefix_refl after) hlt
  exact ⟨_, before ++ front, inner, rest, by simp, hin, by simp, rfl⟩

/-- An opening bracket before balanced pieces is the last that is never closed. -/
theorem Balanced.lastUnclosed (h : Balanced pieces) (before : List Piece) :
    LastUnclosed (before ++ .opening :: pieces) before.length where
  opening := by simp
  unclosed := by
    rintro j ⟨before', inner, after, he, hin, hi, -⟩
    obtain rfl := (List.cons.inj (List.append_inj he hi).2).2
    have hopened := h.opened (inner ++ [.closing]) ⟨after, by simp⟩
    have hclosed := hin.closed
    simp at hopened
    omega
  last := by
    intro k hk hopening
    obtain ⟨i, rfl⟩ := Nat.exists_eq_add_of_lt hk
    have hi : pieces[i]? = some .opening := by
      rwa [List.getElem?_append_right (by omega), Nat.add_assoc, Nat.add_sub_cancel_left,
        List.getElem?_cons_succ] at hopening
    have := h.exists_partners (before ++ [.opening]) hi
    simpa [Nat.add_right_comm] using this

theorem partnered_nil : Partnered [] := by rintro j ⟨⟩

/-- Behind pieces whose closing brackets have partners only the last piece is left to look at. -/
theorem Partnered.of_concat (h : Partnered pieces)
    (hlast : piece = .closing → ∃ i, Partners (pieces ++ [piece]) i pieces.length) : Partnered (pieces ++ [piece]) := by
  intro j hj
  rcases Nat.lt_trichotomy j pieces.length with hlt | rfl | hgt
  · rw [List.getElem?_append_left hlt] at hj
    obtain ⟨i, hi⟩ := h j hj
    exact ⟨i, hi.append _⟩
  · rw [List.getElem?_concat_length] at hj
    exact hlast (Option.some.inj hj)
  · rw [List.getElem?_eq_none (by simp; omega)] at hj
    cases hj

/-- A piece that is no closing bracket needs no partner. -/
theorem Partnered.concat (h : Partnered pieces) (hc : piece ≠ .closing) : Partnered (pieces ++ [piece]) :=
  h.of_concat fun he => absurd he hc

/-- A closing bracket behind an opening one and balanced pieces is its partner. -/
theorem Partnered.close {before inner : List Piece} (h : Partnered (before ++ .opening :: inner))
    (hin : Balanced inner) : Partnered (before ++ .opening :: inner ++ [.closing]) :=
  h.of_concat fun _ => ⟨before.length, before, inner, [], by simp, hin, rfl, rfl⟩

/-! ## Brackets that are open -/

/-- The brackets that some tokens leave open, the innermost first, and the pieces that these tokens spell.  What
stands behind the innermost is balanced. -/
inductive Opened : List Opening → List Located → List Piece → Prop where
  | outside {done : List Located} {pieces : List Piece} (hs : Spells pieces (done.map (·.token)))
    (hb : Balanced pieces) : Opened [] done pieces
  | inside {outer : List Opening} {done within : List Located} {t : Located} {pieces inner : List Piece}
    (h : Opened outer done pieces) (ht : t.token = .openBracket) (hs : Spells inner (within.map (·.token)))
    (hb : Balanced inner) : Opened (⟨t.span, done.length⟩ :: outer) (done ++ t :: within) (pieces ++ .opening :: inner)

theorem Spells.append {front rest : List Token} (hx : Spells xs front) (hy : Spells ys rest) :
    Spells (xs ++ ys) (front ++ rest) := by
  induction hx with
  | nil => exact hy
  | cons h _ ih =>
    rw [List.append_assoc]
    exact .cons h ih

theorem spells_singleton {tokens : List Token} (h : piece.Spelled tokens) : Spells [piece] tokens := by
  have := Spells.cons h .nil
  rwa [List.append_nil] at this

variable {opened outer : List Opening} {done front : List Located} {o : Opening} {t : Located}

theorem spelled_opening (ht : t.token = .openBracket) : Piece.opening.Spelled [t.token] := by
  rw [ht]
  exact .opening

theorem spelled_closing (ht : t.token = .closeBracket) : Piece.closing.Spelled [t.token] := by
  rw [ht]
  exact .closing

theorem Opened.spells (h : Opened opened done pieces) : Spells pieces (done.map (·.token)) := by
  induction h with
  | outside hs => exact hs
  | @inside outer done within t pieces inner _ ht hs _ ih =>
    have := ih.append (Spells.cons (spelled_opening ht) hs)
    simpa using this

/-- Balanced pieces leave open what was open before. -/
theorem Opened.append (h : Opened opened done pieces) (hs : Spells more (front.map (·.token)))
    (hb : Balanced more) : Opened opened (done ++ front) (pieces ++ more) := by
  cases h with
  | outside hs' hb' =>
    refine .outside ?_ (hb'.append hb)
    rw [List.map_append]
    exact hs'.append hs
  | @inside outer done within t pieces inner h ht hs' hb' =>
    rw [List.append_assoc, List.append_assoc, List.cons_append, List.cons_append]
    refine .inside h ht ?_ (hb'.append hb)
    rw [List.map_append]
    exact hs'.append hs

theorem Opened.open (h : Opened opened done pieces) (ht : t.token = .openBracket) :
    Opened (⟨t.span, done.length⟩ :: opened) (done ++ [t]) (pieces ++ [.opening]) := .inside h ht .nil balanced_nil

/-- A closing bracket takes the innermost one off. -/
theorem Opened.close (h : Opened (o :: outer) done pieces) (ht : t.token = .closeBracket) :
    Opened outer (done ++ [t]) (pieces ++ [.closing]) := by
  cases h with
  | @inside _ done within t' pieces inner h ht' hs hb =>
    have hspells : Spells (.opening :: (inner ++ [.closing])) ((t' :: (within ++ [t])).map (·.token)) := by
      rw [List.map_cons, List.map_append]
      exact .cons (spelled_opening ht') (hs.append (spells_singleton (spelled_closing ht)))
    have := h.append hspells hb.wrap
    simpa using this

theorem Opened.partnered_close (h : Opened (o :: outer) done pieces) (hp : Partnered pieces) :
    Partnered (pieces ++ [.closing]) := by
  cases h with
  | inside h ht hs hb => exact hp.close hb

/-- **The innermost bracket is the last that is never closed.** -/
theorem Opened.lastUnclosed (h : Opened (o :: outer) done pieces) : ∃ i, LastUnclosed pieces i ∧
    Spells (pieces.take i) ((done.take o.offset).map (·.token)) := by
  cases h with
  | @inside _ done within t' pieces inner h ht' hs hb =>
    refine ⟨pieces.length, hb.lastUnclosed pieces, ?_⟩
    rw [List.take_left, List.take_left]
    exact h.spells

end PathQuery.Filter
