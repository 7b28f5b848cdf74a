import Mathlib.Tactic.Common
import PathQuery.Proofs.Except
import PathQuery.Store.Registry

/-!
# Proofs/Store/Cursor — what a cursor has yet to give

`Cursor.Gives c docs` says that a cursor over a sound source gives `docs`, in this order, and then nothing.
A cursor starts with the matching documents of its source, each `next` takes the first of them, and
`hasMore` tells whether there is one.
-/

namespace PathQuery

namespace Cursor

/-- The cursor gives some documents and then nothing. -/
def Gives (c : Cursor) (docs : List Document) : Prop :=
  ∃ rest, c.source = sound rest ∧ docs = c.inHand.toList ++ matching c.restriction rest ∧
    (c.inHand = none → matching c.restriction rest = [])

/-- The match that is found and those after it are all the matches. -/
theorem matching_split (r : Restriction) (docs : List Document) :
    matching r docs = (matching r docs).head?.toList ++
      matching r ((docs.dropWhile fun d => !r.admits d).drop 1) := by
  induction docs with
  | nil => rfl
  | cons doc rest ih =>
    rw [matching] at ih ⊢
    by_cases h : r.admits doc
    · simp [h, matching]
    · simp only [List.filter_cons, h, List.dropWhile_cons, Bool.not_false, if_true]
      exact ih

/-- Advancing finds the first match, and behind it stand the others. -/
theorem advance_gives (r : Restriction) (docs : List Document) :
    ∃ rest, Source.advance r (sound docs) = (.ok (matching r docs).head?, sound rest) ∧
      matching r docs = (matching r docs).head?.toList ++ matching r rest :=
  ⟨_, advance_sound r docs, matching_split r docs⟩

theorem Gives.of_advance {r : Restriction} {docs rest : List Document} {found : Option Document}
    (hfound : found = (matching r docs).head?)
    (hrest : matching r docs = found.toList ++ matching r rest) :
    Gives ⟨r, sound rest, found⟩ (matching r docs) := by
  refine ⟨rest, rfl, hrest, fun hnone => ?_⟩
  have hnil : matching r docs = [] := by
    simp only at hnone
    exact List.head?_eq_none_iff.mp (hfound ▸ hnone)
  rw [hnil] at hrest
  exact (List.append_eq_nil_iff.mp hrest.symm).2

/-- **A cursor starts with the matching documents.** -/
theorem exists_start (docs : List Document) (r : Restriction) :
    ∃ c, start (sound docs) r = .ok c ∧ c.restriction = r ∧ c.Gives (matching r docs) := by
  obtain ⟨rest, ha, hsplit⟩ := advance_gives r docs
  exact ⟨⟨r, sound rest, _⟩, by rw [start, ha], rfl, .of_advance rfl hsplit⟩

variable {c : Cursor} {docs : List Document}

/-- The documents that a cursor has yet to give. -/
def ahead (c : Cursor) : List Document :=
  c.inHand.toList ++ matching c.restriction (c.source.filterMap Except.toOption)

theorem Gives.ahead_eq (h : c.Gives docs) : c.ahead = docs := by
  obtain ⟨rest, hs, rfl, -⟩ := h
  have hrest : (sound rest).filterMap Except.toOption = rest := by
    rw [sound, List.filterMap_map]
    exact List.filterMap_some
  rw [ahead, hs, hrest]

theorem Gives.hasMore_iff (h : c.Gives docs) : c.hasMore = true ↔ docs ≠ [] := by
  obtain ⟨rest, -, rfl, hnone⟩ := h
  rw [hasMore]
  cases hc : c.inHand with
  | none => simp [hnone hc]
  | some doc => simp

/-- **`next` takes the first document.** -/
theorem Gives.exists_next (h : c.Gives docs) :
    ∃ c', c.next = (.ok docs.head?, c') ∧ c'.restriction = c.restriction ∧ c'.Gives docs.tail := by
  obtain ⟨rest, hs, rfl, hnone⟩ := h
  rw [next]
  cases hc : c.inHand with
  | none =>
    have hnil := hnone hc
    refine ⟨c, by simp [hnil], rfl, rest, hs, ?_, fun _ => hnil⟩
    simp [hc, hnil]
  | some doc =>
    obtain ⟨after, ha, hsplit⟩ := advance_gives c.restriction rest
    simp only [hs, ha]
    exact ⟨⟨c.restriction, sound after, _⟩, rfl, rfl, .of_advance rfl hsplit⟩

/-! ## Cursors over any source -/

/-- The match that is found, if reading did not fail, and those after it are all the matches. -/
theorem advance_split (r : Restriction) (source : Source) :
    matching r (source.filterMap Except.toOption) =
      (Source.advance r source).1.toOption.join.toList ++
        matching r ((Source.advance r source).2.filterMap Except.toOption) := by
  induction source with
  | nil => rfl
  | cons first rest ih =>
    cases first with
    | error f => rfl
    | ok doc =>
      have hcons : (Except.ok doc :: rest : Source).filterMap Except.toOption =
          doc :: rest.filterMap Except.toOption := rfl
      rw [Source.advance, hcons]
      by_cases h : r.admits doc
      · rw [if_pos h, matching, List.filter_cons, if_pos h]
        rfl
      · rw [if_neg h, matching, List.filter_cons, if_neg h]
        exact ih

theorem next_of_not_hasMore (h : c.hasMore = false) : c.next = (.ok none, c) := by
  rw [next, Option.isNone_iff_eq_none.mp (Option.isSome_eq_false_iff.mp h)]

/-- `next` takes one document from those ahead, also where reading fails. -/
theorem length_ahead_next (h : c.hasMore = true) : c.next.2.ahead.length + 1 = c.ahead.length := by
  obtain ⟨doc, hd⟩ := Option.isSome_iff_exists.mp h
  have hsplit := congrArg List.length (advance_split c.restriction c.source)
  rw [next, hd]
  cases ha : Source.advance c.restriction c.source with
  | mk found source =>
    rw [ha] at hsplit
    cases found <;> simp_all [ahead, Except.toOption]

end Cursor

/-! ## Cursors of requests -/

/-- The first document that a request asks for is the first that satisfies its restriction. -/
theorem Store.fetchOne_eq (s : Store) (request : Request) : s.fetchOne request =
    .ok (Cursor.matching request.restriction (s.documents request.resource)).head? := by
  obtain ⟨c, hc, -, hg⟩ := Cursor.exists_start (s.documents request.resource) request.restriction
  obtain ⟨c', hn, -⟩ := hg.exists_next
  exact bind_eq_ok.mpr ⟨c, hc, by rw [hn]⟩

namespace Registry

/-- **A request gives the documents of its resource that satisfy its restriction.** -/
theorem fetchBatches_of_documentsFor {r : Registry} {request : Request} {docs : List Document}
    (h : r.documentsFor request = .ok docs) (batchSize : Nat) :
    ∃ b, r.fetchBatches request batchSize = .ok b ∧ b.batchSize = max batchSize 1 ∧ b.pulled = 0 ∧
      b.cursor.restriction = request.restriction ∧
      b.cursor.Gives (Cursor.matching request.restriction docs) := by
  obtain ⟨store, hs, rfl⟩ := map_eq_ok.mp h
  obtain ⟨c, hc, hr, hg⟩ := Cursor.exists_start (store.documents request.resource) request.restriction
  refine ⟨.ofCursor c batchSize, ?_, rfl, rfl, hr, hg⟩
  rw [fetchBatches, fetch, hs]
  exact congrArg (Except.map (BatchCursor.ofCursor · batchSize)) hc

/-- A new cursor is at the start of the documents that its request asks for. -/
theorem gives_of_fetchBatches {r : Registry} {request : Request} {batchSize : Nat} {b : BatchCursor}
    (h : r.fetchBatches request batchSize = .ok b) :
    ∃ docs, r.documentsFor request = .ok docs ∧ b.batchSize = max batchSize 1 ∧
      b.cursor.Gives (Cursor.matching request.restriction docs) := by
  obtain ⟨c, hc, -⟩ := map_eq_ok.mp h
  rw [fetch, bind_eq_ok] at hc
  obtain ⟨store, hs, -⟩ := hc
  have hdocs : r.documentsFor request = .ok (store.documents request.resource) := by rw [documentsFor, hs]; rfl
  obtain ⟨b', hb', hsize, -, -, hg⟩ := fetchBatches_of_documentsFor hdocs batchSize
  cases h.symm.trans hb'
  exact ⟨_, hdocs, hsize, hg⟩

end Registry

end PathQuery
