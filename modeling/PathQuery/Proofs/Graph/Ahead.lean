import PathQuery.Proofs.Graph.Pattern

/-!
# Proofs/Graph/Ahead — what a node may yet give

A choice of rows is ahead of a node if its host is yet to be pulled; or if the host is in the batch, the first
children hold rows of the choice, and the next child is idle or has its own part of the choice ahead (`Ahead`).
The walk over the children reads this like the places of a number: what a child holds is done with, and the
children after it start over.  What a node has just given is not ahead of it (`Active.not_ahead`).
-/

namespace PathQuery.Node

open Projection (spreads Columned AtMostOne)

variable {f : Fetcher} {values : Option (List Value)} {n n' child child' : Node} {c : Collection}
  {p : Pattern} {i j : Nat} {gave : Option Collection}

/-! ## What is ahead -/

/-- The documents that the cursor of a node has yet to give. -/
def yet (n : Node) : List Document := (n.progress.cursor.map (·.cursor.ahead)).getD []

/-- A document that satisfies the pattern at the root is yet to be pulled. -/
def Later (p : Pattern) (n : Node) : Prop := ∃ doc ∈ n.yet, p [] (Entity.ofDocument doc).get?

/-- A document that satisfies the pattern at the root is in the batch. -/
def Now (p : Pattern) (n : Node) : Prop := ∃ m ∈ n.progress.results.members, p [] m.entity.get?

/-- The child at a position holds a row that fits the pattern under its edge. -/
def Kept (p : Pattern) (n : Node) (i : Nat) : Prop := ∃ child c, n.children[i]? = some child ∧
  n.progress.childResults[i]? = some c ∧ ∃ x ∈ c.rows, child.Fits (p.under child.edge.name) x.get?

/-- A node may yet give a row that fits a pattern. -/
inductive Ahead : Pattern → Node → Prop where
  | later {p : Pattern} {n : Node} (h : Later p n) : Ahead p n
  | unopened {p : Pattern} {n child : Node} {i : Nat} (now : Now p n) (kept : ∀ j < i, Kept p n j)
    (reached : i ≤ Fetcher.start n) (hc : n.children[i]? = some child) (h : child.Idle) : Ahead p n
  | within {p : Pattern} {n child : Node} {i : Nat} (now : Now p n) (kept : ∀ j < i, Kept p n j)
    (reached : i ≤ Fetcher.start n) (hc : n.children[i]? = some child)
    (h : Ahead (p.under child.edge.name) child) : Ahead p n

/-- The child at a position, if there is one, is idle or has its part of the pattern ahead. -/
def Due (p : Pattern) (n : Node) (i : Nat) : Prop :=
  ∀ child, n.children[i]? = some child → child.Idle ∨ Ahead (p.under child.edge.name) child

/-- A walk that stands at a position may yet come to a row that fits a pattern. -/
def AheadAt (p : Pattern) (n : Node) (i : Nat) : Prop :=
  Later p n ∨ Now p n ∧ ∃ j ≤ i, (∀ l < j, Kept p n l) ∧ Due p n j

theorem AheadAt.mono (h : AheadAt p n i) (hij : i ≤ j) : AheadAt p n j :=
  h.imp id fun ⟨hn, k, hk, h⟩ => ⟨hn, k, hk.trans hij, h⟩

/-- At a leaf, what is ahead is yet to be pulled. -/
theorem ahead_leaf (hl : n.children = []) : Ahead p n ↔ Later p n := by
  refine ⟨fun h => ?_, .later⟩
  cases h with
  | later h => exact h
  | unopened _ _ _ hc => rw [hl] at hc; obtain ⟨⟩ := hc
  | within _ _ _ hc => rw [hl] at hc; obtain ⟨⟩ := hc

/-- **At any other node**, what is ahead is ahead of a walk where it starts. -/
theorem ahead_iff (hl : n.isLeaf = false) : Ahead p n ↔ AheadAt p n (Fetcher.start n) := by
  constructor
  · intro h
    cases h with
    | later h => exact .inl h
    | @unopened _ _ child i now kept reached hc h =>
      exact .inr ⟨now, i, reached, kept, fun k hk => .inl (Option.some.inj (hc.symm.trans hk) ▸ h)⟩
    | @within _ _ child i now kept reached hc h =>
      refine .inr ⟨now, i, reached, kept, fun k hk => .inr ?_⟩
      cases hc.symm.trans hk
      exact h
  · rintro (h | ⟨now, j, hj, kept, due⟩)
    · exact .later h
    · have hlt := Nat.lt_of_le_of_lt hj (Fetcher.start_lt hl)
      have hc := List.getElem?_eq_getElem hlt
      rcases due _ hc with h | h
      · exact .unopened now kept hj hc h
      · exact .within now kept hj hc h

/-! ## Documents of the cursor and of the batch -/

theorem Open.yet_eq {past batch ahead : List Document} (h : n.Open f values past batch ahead) :
    n.yet = ahead := by
  obtain ⟨b, hb, -, hg⟩ := h.cursor
  rw [yet, hb, Option.map_some, Option.getD_some, hg.ahead_eq]

/-- What a pull takes was yet to be pulled. -/
theorem yet_of_pull {past batch ahead : List Document} {b : BatchCursor} {k : Nat}
    (ho : n.Open f values past batch ahead) (hb : n.progress.cursor = some b)
    (h : Fetcher.pull n b = (.ok k, n')) : (Later p n' → Later p n) ∧ (Now p n' → Later p n) := by
  obtain ⟨ho', -⟩ := Fetcher.open_of_pull ho hb h
  rw [Later, Later, ho.yet_eq, ho'.yet_eq]
  constructor
  · rintro ⟨doc, hdoc, hp⟩
    exact ⟨doc, List.mem_of_mem_drop hdoc, hp⟩
  · rintro ⟨m, hm, hp⟩
    obtain ⟨doc, docs, he, hdoc, -⟩ := ho'.exists_document (List.mem_map_of_mem hm)
    exact ⟨doc, List.mem_of_mem_take hdoc, he ▸ hp⟩

/-- **What a node has given is not ahead of it**: its host was pulled, and its children have given theirs. -/
theorem Active.not_ahead (hf : n.Formed) (ha : Active f values n) (hp : f.combination = .projection)
    (hd : n.Dotless f.registry) (hs : n.Single f.registry p) (hu : n.Uncut c) {row : Entity}
    (hrow : row ∈ c.rows) (hfits : n.Fits p row.get?) : ¬ Ahead p n := by
  induction n using Node.induction generalizing values c p row with
  | node n ih =>
    obtain ⟨past, batch, ahead, ho⟩ := ha.exists_open
    obtain ⟨-, hcol⟩ := ha.columned hf hp hd hu
    obtain ⟨m, hm, -, hcol⟩ := hcol row hrow
    obtain ⟨hown, hchildren⟩ := hs.exists_of_fits hu.length_eq hcol hfits
    have hkept : ∀ (i : Nat) (child : Node), n.children[i]? = some child →
        ∃ d, n.progress.childResults[i]? = some d := by
      intro i child hc
      have hlt := (List.getElem?_eq_some_iff.mp hc).1
      exact ⟨_, List.getElem?_eq_getElem (hu.length_eq.symm ▸ hlt)⟩
    intro h
    cases h with
    | later h =>
      rw [Later, ho.yet_eq] at h
      obtain ⟨doc, hdoc, hpdoc⟩ := h
      obtain ⟨pulled, docs, he, hpulled, -⟩ := ho.exists_document (List.mem_map_of_mem hm)
      rw [he] at hown
      obtain ⟨all, hall, hsub⟩ := ho.exists_sublist
      have hone := (hs.single [] n (mem_located_self n) all hall).sublist hsub
      exact (List.pairwise_append.mp hone).2.2 pulled (List.mem_append_right _ hpulled) doc hdoc
        ⟨hown, hpdoc⟩
    | @unopened _ _ child i now kept reached hc h =>
      obtain ⟨d, hd'⟩ := hkept i child hc
      exact (ha.staged.gave i child d hc hd').1 h
    | @within _ _ child i now kept reached hc h =>
      obtain ⟨d, hd'⟩ := hkept i child hc
      obtain ⟨hmem, vals, hactive, hud⟩ := ha.exists_uncut hf hp hc hd'
      obtain ⟨x, hx, -, hxfits⟩ := hchildren i child d hc hd'
      exact ih child hmem (hf.child hmem) hactive (hd.child hmem) (hs.child hmem) hud hx hxfits h

end PathQuery.Node

namespace PathQuery.Fetcher

open Node

variable {f : Fetcher} {values : Option (List Value)} {n n' child child' : Node} {i j : Nat}
  {p : Pattern} {gave : Option Collection}

/-! ## What a turn leaves as it was -/

theorem At.kept_after (h : At f values i n) (hj : j < i) :
    Kept p (after n i child' gave) j ↔ Kept p n j := by
  have hchildren : (after n i child' gave).children[j]? = n.children[j]? :=
    getElem?_setChild_of_ne (Nat.ne_of_gt hj) n child'
  rw [Kept, Kept, hchildren, h.childResults_after hj]

theorem due_after (hj : j ≠ i) : Due p (after n i child' gave) j ↔ Due p n j := by
  have hchildren : (after n i child' gave).children[j]? = n.children[j]? :=
    getElem?_setChild_of_ne hj.symm n child'
  rw [Due, Due, hchildren]

theorem due_after_self (hc : n.children[i]? = some child) :
    Due p (after n i child' gave) i ↔ child'.Idle ∨ Ahead (p.under child'.edge.name) child' := by
  have hself : (after n i child' gave).children[i]? = some child' := getElem?_setChild_self hc child'
  rw [Due, hself]
  exact ⟨fun h => h _ rfl, fun h k hk => Option.some.inj hk ▸ h⟩

theorem At.kept_after_self (h : At f values i n) (hc : n.children[i]? = some child) :
    Kept p (after n i child' gave) i ↔
      ∃ c, gave = some c ∧ ∃ x ∈ c.rows, child'.Fits (p.under child'.edge.name) x.get? := by
  have hself : (after n i child' gave).children[i]? = some child' := getElem?_setChild_self hc child'
  rw [Kept, hself, h.childResults_after_self]
  constructor
  · rintro ⟨k, c, hk, hg, hx⟩
    cases hk
    exact ⟨c, hg, hx⟩
  · rintro ⟨c, hg, hx⟩
    exact ⟨child', c, rfl, hg, hx⟩

end PathQuery.Fetcher
