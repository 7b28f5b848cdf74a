import PathQuery.Proofs.Graph.Ahead
import PathQuery.Proofs.Graph.Provenance
import PathQuery.Proofs.Graph.Inherit
import PathQuery.Proofs.Graph.Total

/-!
# Proofs/Graph/Complete — no choice of joining documents is left out of a shallow tree

A choice takes one stored document for each node, such that the documents at the ends of each edge have the
same key (`Chosen`).  As long as the choice is ahead of a node, a step gives a row with its fields or leaves
it ahead (`Forth`).  A child that is passed over as complete has nothing ahead if the tree below it is at most
one edge deep (`not_ahead_of_complete`), so a drain of a tree of two edges at most gives every choice.
-/

namespace PathQuery

/-! ## Choices -/

/-- A document for each place of a tree. -/
abbrev Choice := List String → Document

namespace Choice

/-- The choice behind an edge. -/
def under (D : Choice) (edge : String) : Choice := fun hops => D (edge :: hops)

/-- What has the fields of the chosen documents. -/
def pattern (D : Choice) : Pattern := fun hops view =>
  ∀ name v, DotFree name → (D hops).get? name = some v → view name = some (.plain v)

theorem isLocal (D : Choice) : D.pattern.Local := fun _ _ _ hvw h name v hn hv =>
  (hvw name hn).symm.trans (h name v hn hv)

/-- A chosen document has its own fields. -/
theorem pattern_ofDocument (D : Choice) (hops : List String) :
    D.pattern hops (Entity.ofDocument (D hops)).get? := by
  intro name v _ hv
  rw [Entity.ofDocument, Fields.get?_mapValues, hv]
  rfl

/-- What has the fields of a chosen document has its keys. -/
theorem keyOf_of_pattern {D : Choice} {row : Entity} {field : String} {v : Value} {key : IndexKey}
    (h : D.pattern [] row.get?) (hf : DotFree field) (hv : (D []).get? field = some v)
    (hk : IndexKey.ofValue? v = some key) : row.keyOf field = .ok key := by
  rw [Entity.keyOf, Entity.value?, h field v hf hv]
  simp only [hk]

end Choice

namespace Node

variable {r : Registry} {n m : Node} {D : Choice}

/-- A stored document for each node, and at each edge the same key of host and child. -/
structure Chosen (r : Registry) (n : Node) (D : Choice) : Prop where
  stored : ∀ hops m, (hops, m) ∈ n.located → Stored r m.plan.request (D hops)
  linked : ∀ hops m, (hops, m) ∈ n.located → ∀ child ∈ m.children, ∃ v : Value, v.IsKey ∧
    (D hops).get? child.edge.hostKey = some v ∧
    (D (hops ++ [child.edge.name])).get? child.edge.relatedKey = some v

instance (r : Registry) (n : Node) (D : Choice) : Decidable (Chosen r n D) :=
  decidable_of_iff (∀ place ∈ n.located, Stored r place.2.plan.request (D place.1) ∧
      ∀ child ∈ place.2.children, ∃ v ∈ (D place.1).get? child.edge.hostKey, v.IsKey ∧
        (D (place.1 ++ [child.edge.name])).get? child.edge.relatedKey = some v) <| by
    constructor
    · intro h
      refine ⟨fun hops m hm => (h _ hm).1, fun hops m hm child hc => ?_⟩
      obtain ⟨v, hhost, hv, hrelated⟩ := (h _ hm).2 child hc
      exact ⟨v, hv, hhost, hrelated⟩
    · rintro ⟨hstored, hlinked⟩ ⟨hops, m⟩ hm
      refine ⟨hstored hops m hm, fun child hc => ?_⟩
      obtain ⟨v, hv, hhost, hrelated⟩ := hlinked hops m hm child hc
      exact ⟨v, hhost, hv, hrelated⟩

theorem Chosen.child (h : Chosen r n D) {child : Node} (hc : child ∈ n.children) :
    Chosen r child (D.under child.edge.name) where
  stored _ m hm := h.stored _ m (mem_located_child hc hm)
  linked _ m hm := h.linked _ m (mem_located_child hc hm)

theorem Chosen.of_alike (h : Chosen r n D) (ha : n.Alike m) : Chosen r m D where
  stored hops k hk := by
    obtain ⟨k', hk', hak⟩ := ha.symm.exists_located hk
    exact hak.plan_eq ▸ h.stored hops k' hk'
  linked hops k hk child hc := by
    obtain ⟨k', hk', hak⟩ := ha.symm.exists_located hk
    obtain ⟨child', hc', hac⟩ := hak.exists_mem hc
    exact hac.edge_eq ▸ h.linked hops k' hk' child' hc'

/-- What a choice needs to be found: rows that can be told apart by their columns, and documents with keys. -/
structure Findable (f : Fetcher) (n : Node) (D : Choice) : Prop where
  formed : n.Formed
  projection : f.combination = .projection
  dotless : n.Dotless f.registry
  supplied : n.Supplied f.registry
  chosen : Chosen f.registry n D

theorem Findable.child {f : Fetcher} (h : Findable f n D) {child : Node} (hc : child ∈ n.children) :
    Findable f child (D.under child.edge.name) :=
  ⟨h.formed.child hc, h.projection, h.dotless.child hc, h.supplied.child hc, h.chosen.child hc⟩

theorem Findable.of_alike {f : Fetcher} (h : Findable f n D) (ha : n.Alike m) : Findable f m D :=
  ⟨h.formed.of_alike ha, h.projection, h.dotless.of_alike ha, h.supplied.of_alike ha, h.chosen.of_alike ha⟩

variable {f : Fetcher} {values : Option (List Value)} {child : Node} {i : Nat} {c : Collection}

/-- The key that host and child of a choice have at an edge. -/
theorem Findable.exists_key (h : Findable f n D) (hc : child ∈ n.children) : ∃ v key, v.IsKey ∧
    IndexKey.ofValue? v = some key ∧ key.toValue = v ∧
    (D.under child.edge.name []).get? child.edge.relatedKey = some v ∧
      (∀ host : Entity, D.pattern [] host.get? → host.keyOf child.edge.hostKey = .ok key) ∧
      ∀ x : Entity, (D.under child.edge.name).pattern [] x.get? → x.keyOf child.edge.relatedKey = .ok key := by
  obtain ⟨v, hv, hhost, hrelated⟩ := h.chosen.linked [] n (mem_located_self n) child hc
  obtain ⟨key, hk, hvalue⟩ := hv.exists_key
  obtain ⟨edge, hj⟩ := h.formed.joint hc
  obtain ⟨-, hdot, hdot'⟩ := (h.dotless.child hc).edges child (mem_all_self child) edge hj.edge_eq
  rw [← hj.edge_child] at hdot hdot'
  exact ⟨v, key, hv, hk, hvalue, hrelated, fun host hp => Choice.keyOf_of_pattern hp hdot hhost hk,
    fun x hp => Choice.keyOf_of_pattern hp hdot' hrelated hk⟩

/-- Rows with the fields of a choice join. -/
theorem Findable.joins (h : Findable f n D) (hc : child ∈ n.children) {host x : Entity}
    (hhost : D.pattern [] host.get?) (hx : child.Fits (D.pattern.under child.edge.name) x.get?) :
    child.edge.joins host x = true := by
  obtain ⟨v, key, -, -, -, -, hk, hk'⟩ := h.exists_key hc
  exact Navigation.joins_iff.mpr ⟨key, hk host hhost, hk' x (fits_iff.mp hx).1⟩

/-! ## What is opened and pulled -/

/-- What was yet to be pulled is pulled or still to be pulled. -/
theorem Supplied.later_or_now {p : Pattern} {b : BatchCursor} {k : Nat} (h : n.Supplied f.registry)
    (ha : Active f values n) (hb : n.progress.cursor = some b) (hpull : Fetcher.pull n b = (.ok k, m))
    (hl : Later p n) : Later p m ∨ Now p m := by
  obtain ⟨past, batch, ahead, ho⟩ := ha.exists_open
  obtain ⟨ho', hal, -⟩ := Fetcher.open_of_pull ho hb hpull
  obtain ⟨doc, hdoc, hp⟩ := hl
  rw [ho.yet_eq, ← List.take_append_drop b.batchSize ahead] at hdoc
  rcases List.mem_append.mp hdoc with hdoc | hdoc
  · have hrow : Entity.ofDocument doc ∈ m.progress.results.rows := by
      rw [(h.of_alike hal.symm).rows_eq ho']
      exact List.mem_map_of_mem hdoc
    obtain ⟨host, hm, he⟩ := List.mem_map.mp hrow
    exact .inr ⟨host, hm, he ▸ hp⟩
  · exact .inl ⟨doc, ho'.yet_eq ▸ hdoc, hp⟩

/-- A node with idle children has ahead what its batch has. -/
theorem ahead_of_now {p : Pattern} (hl : n.isLeaf = false) (hi : ∀ child ∈ n.children, child.Idle)
    (hnow : Now p n) : Ahead p n := by
  have hpos := Fetcher.start_lt hl
  have hc := List.getElem?_eq_getElem (Nat.zero_lt_of_lt hpos)
  exact .unopened hnow (fun j hj => absurd hj (Nat.not_lt_zero j)) (Nat.zero_le _) hc
    (hi _ (List.mem_of_getElem? hc))

/-- **A node that is opened for a chosen document** has the choice ahead. -/
theorem Findable.ahead_of_openCursor (h : Findable f n D) (hi : n.Idle)
    (hopen : f.openCursor values n = (.ok (), m))
    (hadmits : (Fetcher.requestFor n values).restriction.admits (D []) = true) : Ahead D.pattern m := by
  obtain ⟨batch, ahead, ho, hal, hchildren, -, hleaf⟩ := Fetcher.open_of_openCursor h.formed.laid hopen
  obtain ⟨docs, hdocs, hsource⟩ := ho.source
  obtain ⟨docs', hdocs', hmem, -⟩ := h.chosen.stored [] n (mem_located_self n)
  rw [hal.plan_eq, hdocs'] at hdocs
  cases hdocs
  have hmatch : D [] ∈ batch ++ ahead := by
    rw [List.nil_append] at hsource
    rw [hsource, Fetcher.requestFor_congr hal.plan_eq]
    exact List.mem_filter.mpr ⟨hmem, hadmits⟩
  rcases List.mem_append.mp hmatch with hd | hd
  · have hinner : n.isLeaf = false := Bool.eq_false_iff.mpr fun hl => by
      rw [hleaf hl] at hd
      obtain ⟨⟩ := hd
    have hrow : Entity.ofDocument (D []) ∈ m.progress.results.rows := by
      rw [(h.supplied.of_alike hal.symm).rows_eq ho]
      exact List.mem_map_of_mem hd
    obtain ⟨host, hm, he⟩ := List.mem_map.mp hrow
    exact ahead_of_now (hal.isLeaf_eq.trans hinner) (fun k hk => hi.child (hchildren ▸ hk))
      ⟨host, hm, he ▸ D.pattern_ofDocument []⟩
  · exact .later ⟨D [], ho.yet_eq ▸ hd, D.pattern_ofDocument []⟩

/-- A child is asked for the key that host and child of a choice have, if the children before it hold their
parts of the choice. -/
theorem Findable.mem_valuesFor (h : Findable f n D) (ha : Active f values n)
    (hc : n.children[i]? = some child) (hnow : Now D.pattern n) (hkept : ∀ j < i, Kept D.pattern n j)
    {vals : List Value} (hv : Fetcher.valuesFor n i child = .ok vals) {key : IndexKey}
    (hkey : ∀ host : Entity, D.pattern [] host.get? → host.keyOf child.edge.hostKey = .ok key) :
    key.toValue ∈ vals := by
  obtain ⟨past, batch, ahead, ho⟩ := ha.exists_open
  obtain ⟨edge, hj⟩ := h.formed.joint (List.mem_of_getElem? hc)
  obtain ⟨host, hm, hp⟩ := hnow
  have hhost := hkey _ hp
  rw [hj.edge_child] at hhost
  cases i with
  | zero =>
    rw [Fetcher.valuesFor, hj.edge_eq] at hv
    exact (ho.valid.mem_distinctValues hv).mpr ⟨host, hm, key, hhost, rfl⟩
  | succ i =>
    obtain ⟨k, d, hk, hd, x, hx, hfits⟩ := hkept i (Nat.lt_succ_self i)
    obtain ⟨-, hnav⟩ := ha.flat_child h.formed h.projection hk hd
    exact (ho.mem_valuesFor_succ hj.edge_eq hd hnav hv).mpr
      ⟨host, hm, ⟨x, hx, h.joins (List.mem_of_getElem? hk) hp hfits⟩, key, hhost, rfl⟩

/-- **A child that is opened in its turn** has its part of the choice ahead. -/
theorem Findable.ahead_of_turn (h : Findable f n D) (ha : Active f values n)
    (hc : n.children[i]? = some child) (hnow : Now D.pattern n) (hkept : ∀ j < i, Kept D.pattern n j)
    (hi : child.Idle) {vals : List Value} (hv : Fetcher.valuesFor n i child = .ok vals)
    (hopen : f.openCursor (some vals) child = (.ok (), m)) :
    Ahead (D.pattern.under child.edge.name) m := by
  have hmem := List.mem_of_getElem? hc
  obtain ⟨v, key, hiskey, hk, hvalue, hrelated, hhost, -⟩ := h.exists_key hmem
  have hin := h.mem_valuesFor ha hc hnow hkept hv hhost
  obtain ⟨edge, hj⟩ := h.formed.joint hmem
  obtain ⟨-, -, -, hadmits⟩ := (h.chosen.child hmem).stored [] child (mem_located_self child)
  refine (h.child hmem).ahead_of_openCursor hi hopen ?_
  rw [Fetcher.requestFor_of_edge hj.edge_eq, Request.restrictTo, Restriction.restrictTo,
    Restriction.admits_push, hadmits, Bool.true_and, ← hj.edge_child, Document.lookup, hrelated]
  exact List.any_eq_true.mpr ⟨v, hvalue ▸ hin, hiskey.equals_self⟩

/-! ## What is given -/

/-- **A choice that host and children hold** is given: one of the combined rows has its fields. -/
theorem Findable.exists_row (h : Findable f n D) (ha : Active f values n) (hu : n.Uncut c)
    (hnow : Now D.pattern n) (hkept : ∀ j < n.children.length, Kept D.pattern n j) :
    ∃ row ∈ c.rows, n.Fits D.pattern row.get? := by
  obtain ⟨past, batch, ahead, ho⟩ := ha.exists_open
  obtain ⟨host, hm, hp⟩ := hnow
  obtain ⟨hnodup, hdot⟩ := ho.names_of_mem h.dotless hm
  obtain ⟨hsep, -⟩ := ha.columned h.formed h.projection h.dotless hu
  have hbranch : ∀ b ∈ n.held, ∃ x ∈ b.2, b.1.joins host.entity x = true ∧ n.fitting D.pattern b x.get? := by
    intro b hb
    obtain ⟨i, child, d, hc, hd, rfl⟩ := mem_held.mp hb
    obtain ⟨child', d', hc', hd', x, hx, hfits⟩ := hkept i (List.getElem?_eq_some_iff.mp hc).1
    cases hc.symm.trans hc'
    cases hd.symm.trans hd'
    have hmem := List.mem_of_getElem? hc
    exact ⟨x, hx, h.joins hmem hp hfits, fun k hk he => h.formed.eq_of_edge hk hmem he ▸ hfits⟩
  obtain ⟨row, hrow, hall⟩ := Projection.exists_mem_spreads hsep hnodup hdot hbranch
  have hcol := Projection.columned_of_mem_spreads hsep hnodup hdot hrow
  refine ⟨row, ?_, (fits_of_columned hu.length_eq D.isLocal hcol).mpr ⟨hp, hall⟩⟩
  rcases (ha.flat h.formed h.projection hu).rows with ⟨hleaf, hrows⟩ | ⟨last, hlast, hrows⟩
  · rw [held, hleaf] at hrow
    rw [hrows, List.mem_singleton.mp hrow]
    exact List.mem_map_of_mem hm
  · obtain ⟨x, hx, hj, -⟩ := hbranch last (List.mem_of_getLast? hlast)
    rw [hrows]
    exact List.mem_flatMap.mpr ⟨host, Collection.mem_taken.mpr ⟨hm, x, hx, hj⟩, hrow⟩

/-! ## What is passed over -/

theorem Active.yet_eq_nil (ha : Active f values n) (hs : n.status = .complete) : n.yet = [] := by
  obtain ⟨past, batch, ahead, ho⟩ := ha.exists_open
  obtain ⟨b, hb, -, hg⟩ := ho.cursor
  rw [ho.yet_eq]
  by_contra hne
  have hmore : b.hasMore = true := hg.hasMore_iff.mpr hne
  rw [status, hb] at hs
  simp [hmore] at hs

theorem status_of_joinedStatus (hs : n.joinedStatus = .complete) :
    n.status = .complete ∧ ∀ child ∈ n.children, child.status = .complete := by
  rw [joinedStatus] at hs
  split at hs
  · obtain ⟨⟩ := hs
  · rename_i hno
    refine ⟨hs, fun child hc => ?_⟩
    by_contra hne
    exact hno ⟨hs, List.any_eq_true.mpr ⟨child, hc, decide_eq_true hne⟩⟩

/-- **A child that is passed over has nothing ahead**, if no node below it has children. -/
theorem Active.not_ahead_of_complete {p : Pattern} (ha : Active f values n) (hh : n.height ≤ 2)
    (hs : n.joinedStatus = .complete) : ¬ Ahead p n := by
  obtain ⟨hown, hchildren⟩ := status_of_joinedStatus hs
  intro h
  cases h with
  | later h =>
    obtain ⟨doc, hdoc, -⟩ := h
    rw [ha.yet_eq_nil hown] at hdoc
    obtain ⟨⟩ := hdoc
  | unopened _ _ _ hc h => obtain ⟨⟩ := h.status.symm.trans (hchildren _ (List.mem_of_getElem? hc))
  | @within _ _ child i _ _ _ hc h =>
    have hmem := List.mem_of_getElem? hc
    have hi : ¬ child.Idle := fun hi => nomatch hi.status.symm.trans (hchildren child hmem)
    obtain ⟨-, vals, -, hactive⟩ := ha.exists_vals hc hi
    have hleaf : child.children = [] := children_of_height_le (by have := height_lt_of_mem hmem; omega)
    obtain ⟨doc, hdoc, -⟩ := (ahead_leaf hleaf).mp h
    rw [hactive.yet_eq_nil (hchildren child hmem)] at hdoc
    obtain ⟨⟩ := hdoc

end Node

namespace Fetcher

open Node

variable {f : Fetcher} {fetch : Node → Except Failure Outcome × Node} {values : Option (List Value)}
  {n n' m child child' : Node} {i : Nat} {o : Outcome} {p : Pattern} {D : Choice}

/-! ## Steps lose nothing -/

/-- What was ahead before a step is given by it or still ahead. -/
def Forth (p : Pattern) (n : Node) (o : Outcome) (n' : Node) : Prop :=
  match o with
  | .batch c => Ahead p n' ∨ ∃ row ∈ c.rows, n.Fits p row.get?
  | .pending => Ahead p n'
  | .exhausted => False
  | .unfinished => True

theorem Forth.of_alike (h : Forth p n o n') (ha : n.Alike m) : Forth p m o n' := by
  cases o with
  | batch c => exact h.imp id fun ⟨row, hrow, hfits⟩ => ⟨row, hrow, hfits.of_alike ha⟩
  | pending => exact h
  | exhausted => exact h
  | unfinished => exact h

/-- A way of fetching from trees of two edges at most that loses no choice. -/
def Forwards (f : Fetcher) (fetch : Node → Except Failure Outcome × Node) : Prop :=
  ∀ n values D, Findable f n D → n.height ≤ 3 → (n.isRoot = true → n.columns = []) →
    Active f values n → Ahead D.pattern n → ∀ o n', fetch n = (.ok o, n') → Forth D.pattern n o n'

/-- A turn loses nothing of a child whose turn it is. -/
theorem At.forth_turn (hforwards : Forwards f fetch) (h : Findable f n D) (hh : n.height ≤ 3)
    (hat : At f values i n) (hc : n.children[i]? = some child) (hnow : Now D.pattern n)
    (hkept : ∀ j < i, Kept D.pattern n j) (hdue : Due D.pattern n i)
    (ht : f.turn fetch n i child = (.ok o, child')) :
    Forth (D.pattern.under child.edge.name) child o child' := by
  have hmem := List.mem_of_getElem? hc
  have hchild := h.child hmem
  have hlt := height_lt_of_mem hmem
  obtain ⟨edge, hj⟩ := h.formed.joint hmem
  by_cases hi : child.Idle
  · rcases turn_cases ht with ⟨hs, -⟩ | ⟨hs, -⟩ | ⟨-, vals, opened, hv, hopen, hfetch⟩
    · obtain ⟨⟩ := hi.joinedStatus.symm.trans hs
    · obtain ⟨⟩ := hi.joinedStatus.symm.trans hs
    · obtain ⟨hal, hactive⟩ := active_of_openCursor hchild.formed hi hopen
      have hahead := h.ahead_of_turn hat.active hc hnow hkept hi hv hopen
      exact (hforwards opened _ _ (hchild.of_alike hal.symm) (by rw [hal.height_eq]; omega)
        (fun hr => nomatch hj.inner.symm.trans (hal.isRoot_eq.symm.trans hr)) hactive hahead o child'
        hfetch).of_alike hal
  · have hahead := (hdue child hc).resolve_left hi
    obtain ⟨-, vals, -, hactive⟩ := hat.active.exists_vals hc hi
    rcases turn_cases ht with ⟨hs, -⟩ | ⟨-, hfetch⟩ | ⟨hs, -⟩
    · exact absurd hahead (hactive.not_ahead_of_complete (by omega) hs)
    · exact hforwards child _ _ hchild (by omega) hj.columns_eq hactive hahead o
        child' hfetch
    · obtain ⟨_, _, _, ho⟩ := hactive.exists_open
      exact absurd (joinedStatus_eq_unready.mp hs) ho.cursor_ne

/-- What is ahead of a walk stays ahead of it if it is left at an earlier child. -/
theorem At.aheadAt_after {gave : Option Collection} {j : Nat} (hat : At f values i n) (hj : j < i)
    (hnow : Now p n) (hkept : ∀ l < j, Kept p n l) (hdue : Due p n j) {k : Nat} (hk : j ≤ k) :
    AheadAt p (after n i child' gave) k :=
  .inr ⟨hnow, j, hk, fun l hl => (hat.kept_after (hl.trans hj)).mpr (hkept l hl),
    (due_after (Nat.ne_of_lt hj)).mpr hdue⟩

section Turns

variable (hkeeps : Keeps f fetch) (hforwards : Forwards f fetch) (h : Findable f n D) (hh : n.height ≤ 3)

include hkeeps hforwards h hh

theorem At.aheadAt_of_batch {c : Collection} (hat : At f values i n) (hc : n.children[i]? = some child)
    (ht : f.turn fetch n i child = (.ok (.batch c), child')) (ha : AheadAt D.pattern n i) :
    AheadAt D.pattern (after n i child' (some c)) (i + 1) := by
  rcases ha with hlater | ⟨hnow, j, hj, hkept, hdue⟩
  · exact .inl hlater
  rcases Nat.lt_or_eq_of_le hj with hlt | rfl
  · exact hat.aheadAt_after hlt hnow hkept hdue (Nat.le_succ_of_le hj)
  · obtain ⟨hal, -⟩ := hat.turn hkeeps hc ht
    have hbefore : ∀ l < j, Kept D.pattern (after n j child' (some c)) l := fun l hl =>
      (hat.kept_after hl).mpr (hkept l hl)
    rcases hat.forth_turn hforwards h hh hc hnow hkept hdue ht with hahead | ⟨x, hx, hfits⟩
    · exact .inr ⟨hnow, j, Nat.le_succ j, hbefore, (due_after_self hc).mpr (.inr (hal.edge_eq ▸ hahead))⟩
    · -- the child holds its part of the choice now, and the next child starts anew
      refine .inr ⟨hnow, j + 1, Nat.le_refl _, fun l hl => ?_, fun k hk => .inl ?_⟩
      · rcases Nat.lt_succ_iff_lt_or_eq.mp hl with hl | rfl
        · exact hbefore l hl
        · exact (hat.kept_after_self hc).mpr ⟨c, rfl, x, hx, hal.edge_eq ▸ hfits.of_alike hal.symm⟩
      · exact hat.idle (j + 1) k (Nat.lt_succ_self j)
          ((getElem?_setChild_of_ne (Nat.ne_of_lt (Nat.lt_succ_self j)) n child').symm.trans hk)

theorem At.aheadAt_of_pending (hat : At f values i n) (hc : n.children[i]? = some child)
    (ht : f.turn fetch n i child = (.ok .pending, child')) (ha : AheadAt D.pattern n i) :
    AheadAt D.pattern (after n i child' none) i := by
  rcases ha with hlater | ⟨hnow, j, hj, hkept, hdue⟩
  · exact .inl hlater
  rcases Nat.lt_or_eq_of_le hj with hlt | rfl
  · exact hat.aheadAt_after hlt hnow hkept hdue hj
  · obtain ⟨hal, -⟩ := hat.turn hkeeps hc ht
    have hahead := hat.forth_turn hforwards h hh hc hnow hkept hdue ht
    exact .inr ⟨hnow, j, hj, fun l hl => (hat.kept_after hl).mpr (hkept l hl),
      (due_after_self hc).mpr (.inr (hal.edge_eq ▸ hahead))⟩

omit hkeeps in
theorem At.aheadAt_of_exhausted (hat : At f values i n) (hc : n.children[i]? = some child)
    (ht : f.turn fetch n i child = (.ok .exhausted, child')) (ha : AheadAt D.pattern n i) :
    Later D.pattern n ∨ ∃ j < i, Now D.pattern n ∧ (∀ l < j, Kept D.pattern n l) ∧ Due D.pattern n j := by
  rcases ha with hlater | ⟨hnow, j, hj, hkept, hdue⟩
  · exact .inl hlater
  rcases Nat.lt_or_eq_of_le hj with hlt | rfl
  · exact .inr ⟨j, hlt, hnow, hkept, hdue⟩
  · exact (hat.forth_turn hforwards h hh hc hnow hkept hdue ht).elim

end Turns

/-- What was ahead of a walk where it started is still ahead where it ends. -/
def WalkedForth (p : Pattern) (r : Except Failure WalkEnd) (n' : Node) : Prop :=
  match r with
  | .ok .joined => Ahead p n' ∨ Now p n' ∧ ∀ j < n'.children.length, Kept p n' j
  | .ok .pending => Ahead p n'
  | .ok .exhausted => Later p n'
  | _ => True

theorem walkedForth_walk (hkeeps : Keeps f fetch) (hforwards : Forwards f fetch) (h : Findable f n D)
    (hh : n.height ≤ 3) (hl : n.isLeaf = false) (steps : Nat) (hat : At f values (start n) n)
    (ha : Ahead D.pattern n) :
    WalkedForth D.pattern (f.walk fetch steps (start n) n).1 (f.walk fetch steps (start n) n).2 := by
  refine walk_rule (I := fun _ j m => At f values j m ∧ m.Alike n ∧ AheadAt D.pattern m j)
    (Q := fun r m => WalkedForth D.pattern r m) ?_ ?_ ?_ ?_ ?_ ?_ ?_ ?_ ⟨hat, .refl n, (ahead_iff hl).mp ha⟩
  · exact fun _ _ _ => trivial
  · rintro s j m ⟨hat, hal, hahead⟩ hnone
    rcases hahead with hlater | ⟨hnow, k, -, hkept, hdue⟩
    · exact .inl (.later hlater)
    by_cases hk : k ≤ start m
    · exact .inl ((ahead_iff (hal.isLeaf_eq.trans hl)).mpr (.inr ⟨hnow, k, hk, hkept, hdue⟩))
    · refine .inr ⟨hnow, fun l hl => hkept l ?_⟩
      have hlen := hat.length_eq hnone
      rw [start] at hk
      omega
  · exact fun _ _ _ _ _ _ _ _ _ => trivial
  · exact fun _ _ _ _ _ _ _ _ => trivial
  · rintro s j m k k' ⟨hat, hal, hahead⟩ hk ht
    refine (ahead_iff (isLeaf_after hk)).mpr ?_
    rw [hat.start_after hk]
    exact hat.aheadAt_of_pending hkeeps hforwards (h.of_alike hal.symm) (hal.height_eq ▸ hh) hk ht hahead
  · rintro s j m k k' d ⟨hat, hal, hahead⟩ hk ht
    obtain ⟨hat', hal'⟩ := hat.batch hkeeps hk ht
    exact ⟨hat', hal'.trans hal, hat.aheadAt_of_batch hkeeps hforwards (h.of_alike hal.symm)
      (hal.height_eq ▸ hh) hk ht hahead⟩
  · rintro s m k k' ⟨hat, hal, hahead⟩ hk ht
    refine (hat.aheadAt_of_exhausted hforwards (h.of_alike hal.symm) (hal.height_eq ▸ hh) hk ht
      hahead).resolve_right ?_
    rintro ⟨j, hj, -⟩
    exact Nat.not_lt_zero j hj
  · rintro s j m k k' ⟨hat, hal, hahead⟩ hk ht
    obtain ⟨hat', hal'⟩ := hat.back hkeeps hk ht
    refine ⟨hat', hal'.trans hal, ?_⟩
    rcases hat.aheadAt_of_exhausted hforwards (h.of_alike hal.symm) (hal.height_eq ▸ hh) hk ht hahead with
      hlater | ⟨l, hl, hnow, hkept, hdue⟩
    · exact .inl hlater
    · exact hat.aheadAt_after hl hnow hkept hdue (Nat.le_of_lt_succ hl)

theorem forth_fetchLeaf {b : BatchCursor} (h : Findable f n D) (hroot : n.isRoot = true → n.columns = [])
    (ha : Active f values n) (hl : n.isLeaf = true) (hb : n.progress.cursor = some b)
    (hahead : Ahead D.pattern n) (ht : f.fetchLeaf n b = (.ok o, n')) : Forth D.pattern n o n' := by
  have hlater := (ahead_leaf (List.isEmpty_iff.mp hl)).mp hahead
  obtain ⟨hal, hfetched⟩ := fetched_fetchLeaf ha hl hb ht
  have h' := h.of_alike hal.symm
  rcases fetchLeaf_cases ht with ⟨hmore, rfl, -⟩ | ⟨-, k, hpull, hend⟩
  · obtain ⟨past, batch, ahead, ho⟩ := ha.exists_open
    obtain ⟨b', hb', -, hg⟩ := ho.cursor
    cases hb.symm.trans hb'
    obtain ⟨doc, hdoc, -⟩ := hlater
    rw [ho.yet_eq] at hdoc
    obtain ⟨⟩ := hmore.symm.trans (hg.hasMore_iff.mpr (List.ne_nil_of_mem hdoc))
  · have hnext := h.supplied.later_or_now ha hb hpull hlater
    rcases hend with ⟨hempty, rfl⟩ | ⟨c, rfl, -⟩
    · refine .later (hnext.resolve_right fun ⟨host, hm, _⟩ => ?_)
      obtain ⟨past, batch, ahead, ho⟩ := hfetched.exists_open
      rw [Collection.isEmpty, ho.valid.size_eq, beq_iff_eq, List.length_eq_zero_iff] at hempty
      exact List.not_mem_nil (hempty ▸ hm)
    · refine hnext.imp .later fun hnow => ?_
      have hu := hfetched.2.uncut h.projection fun hr => hal.columns_eq.trans (hroot (hal.isRoot_eq ▸ hr))
      have hnil : n'.children = [] := List.isEmpty_iff.mp (hal.isLeaf_eq.trans hl)
      obtain ⟨row, hrow, hfits⟩ := h'.exists_row hfetched.1 hu hnow fun j hj => by
        rw [hnil] at hj
        exact absurd hj (Nat.not_lt_zero j)
      exact ⟨row, hrow, hfits.of_alike hal⟩

theorem forth_advance {b : BatchCursor} (h : Findable f n D) (ha : Active f values n) (hl : n.isLeaf = false)
    (hb : n.progress.cursor = some b) (hlater : Later D.pattern n) (ht : advance n b = (.ok o, n')) :
    o = .pending ∧ Ahead D.pattern n' := by
  obtain ⟨past, batch, ahead, ho⟩ := ha.exists_open
  rcases advance_cases ht with ⟨hmore, -, -⟩ | ⟨-, rfl, k, m, hpull, rfl⟩
  · obtain ⟨b', hb', -, hg⟩ := ho.cursor
    cases hb.symm.trans hb'
    obtain ⟨doc, hdoc, -⟩ := hlater
    rw [ho.yet_eq] at hdoc
    obtain ⟨⟩ := hmore.symm.trans (hg.hasMore_iff.mpr (List.ne_nil_of_mem hdoc))
  · obtain ⟨-, hal, -, -⟩ := open_of_pull ho hb hpull
    have hleaf : m.resetChildren.isLeaf = false := (alike_resetChildren m).isLeaf_eq.trans (hal.isLeaf_eq.trans hl)
    have hstill : Later D.pattern m → Ahead D.pattern m.resetChildren := fun hm =>
      .later (show Later D.pattern m.resetChildren from hm)
    exact ⟨rfl, (h.supplied.later_or_now ha hb hpull hlater).elim hstill
      (ahead_of_now hleaf (idle_resetChildren m))⟩

/-- **No fetch from a shallow tree loses a choice.** -/
theorem forwards_fetchWithin (f : Fetcher) (height : Nat) : Forwards f (f.fetchWithin height) := by
  induction height with
  | zero =>
    intro n values D _ _ _ _ _ o n' h
    cases h
    trivial
  | succ height ih =>
    intro n values D hf hh hroot ha hahead o n' h
    have hkeeps := keeps_fetchWithin f height
    have hwalked : ∀ {e m}, n.isLeaf = false →
        f.walk (f.fetchWithin height) f.steps (start n) n = (e, m) → WalkedForth D.pattern e m :=
      fun hl hwalk => by
        have := walkedForth_walk hkeeps ih hf hh hl f.steps (at_start hf.formed ha hl) hahead
        rwa [hwalk] at this
    refine active_fetchWithin_rule (motive := Forth D.pattern n) hkeeps hf.formed ha h ?_ ?_ ?_ ?_ ?_
    · exact fun b hl hb h => forth_fetchLeaf hf hroot ha hl hb hahead h
    · intro c m hl hwalk hal hm hgave
      refine (hwalked hl hwalk).imp id fun ⟨hnow, hkept⟩ => ?_
      have hu := hgave.uncut hf.projection fun hr => hal.columns_eq.trans (hroot (hal.isRoot_eq ▸ hr))
      obtain ⟨row, hrow, hfits⟩ := (hf.of_alike hal.symm).exists_row hm hu hnow hkept
      exact ⟨row, hrow, hfits.of_alike hal⟩
    · exact fun m hl hwalk _ _ => hwalked hl hwalk
    · intro b m hl hwalk hal hm _ hb hadvance
      obtain ⟨rfl, hn'⟩ := forth_advance (hf.of_alike hal.symm) hm (hal.isLeaf_eq.trans hl) hb
        (hwalked hl hwalk) hadvance
      exact hn'
    · exact fun m _ _ _ => trivial

end Fetcher

/-! ## Drains -/

namespace Graph

open Node

variable {g g₁ : Graph} {D : Choice} {o : Outcome}

/-- **A drain that is exhausted has given what was ahead.** -/
theorem Sound.exists_row_drain (hs : g.Sound) (h : Findable g.fetcher g.root D) (hh : g.root.height ≤ 3)
    (hw : g.root.columns = []) (hahead : Ahead D.pattern g.root) (hend : g.drain.ending = .exhausted) :
    ∃ row ∈ g.drain.rows, g.root.Fits D.pattern row.get? := by
  have hforth : ∀ {g g₁ : Graph} {o : Outcome}, g.Sound → g.fetch = (.ok o, g₁) →
      Findable g.fetcher g.root D ∧ g.root.height ≤ 3 ∧ g.root.columns = [] →
      Ahead D.pattern g.root → g₁.root.Alike g.root ∧ (Findable g₁.fetcher g₁.root D ∧
        g₁.root.height ≤ 3 ∧ g₁.root.columns = []) ∧ Fetcher.Forth D.pattern g.root o g₁.root := by
    rintro g g₁ o hs hf ⟨h, hh, hw⟩ hahead
    obtain ⟨hactive, hfet, hal, hroot, -, -⟩ := hs.fetch hf
    refine ⟨hal, ⟨hfet ▸ h.of_alike hal.symm, hal.height_eq ▸ hh, hal.columns_eq.trans hw⟩, ?_⟩
    exact Fetcher.forwards_fetchWithin g.fetcher g.root.height _ _ D h hh (fun _ => hw) hactive hahead o _ hroot
  refine drain_rule (Q := fun g run => (Findable g.fetcher g.root D ∧ g.root.height ≤ 3 ∧
    g.root.columns = []) → Ahead D.pattern g.root → run.ending = .exhausted →
      ∃ row ∈ run.rows, g.root.Fits D.pattern row.get?) ?_ ?_ ?_ ?_ hs ⟨h, hh, hw⟩ hahead hend
  · rintro _ _ _ _ _ _ _ ⟨⟩
  · intro g g₁ hs hf h hahead _
    exact (hforth hs hf h hahead).2.2.elim
  · intro g g₁ run hs hf ih h hahead hend
    obtain ⟨hal, h₁, hahead₁⟩ := hforth hs hf h hahead
    obtain ⟨row, hrow, hfits⟩ := ih h₁ hahead₁ hend
    exact ⟨row, hrow, hfits.of_alike hal⟩
  · intro g g₁ c run hs hf ih h hahead hend
    obtain ⟨hal, h₁, hgiven⟩ := hforth hs hf h hahead
    obtain ⟨-, -, -, -, -, hactive, hgave⟩ := hs.fetch hf
    have hu := hgave.uncut h₁.1.projection fun _ => h₁.2.2
    rw [rows_push (hactive.flat h₁.1.formed h₁.1.projection hu).valid]
    rcases hgiven with hahead₁ | ⟨row, hrow, hfits⟩
    · obtain ⟨row, hrow, hfits⟩ := ih h₁ hahead₁ hend
      exact ⟨row, List.mem_append_right _ hrow, hfits.of_alike hal⟩
    · exact ⟨row, List.mem_append_left _ hrow, hfits⟩

/-- **Every choice of joining documents is given** by a tree of two edges at most.  A run ends with every
row given if the keys of all edges have names, and then one of its rows has, under the edges to each node, the
fields of the document that was chosen there. -/
theorem exists_row_of_chosen {catalog after : Catalog} (hc : catalog.Reached) {resource : String}
    {predicates : List Filter.Predicate} {root : Node}
    (h : Node.ofQuery? catalog resource predicates [] = (.ok root, after)) (hh : root.height ≤ 3)
    {registry : Registry} (hd : root.Dotless registry) (hs : root.Supplied registry) {D : Choice}
    (hD : root.Chosen registry D) (batchSize : Nat) :
    ∃ run, (ofRoot registry .projection batchSize root).run = .ok run ∧
      (root.Hinged → run.ending = .exhausted) ∧
      (run.ending = .exhausted → ∃ row ∈ run.rows, ∀ hops m, (hops, m) ∈ root.located →
        ∀ name value, (D hops).get? name = some value → row.get? (column hops name) = some (.plain value)) := by
  have hbuilt : (ofRoot registry .projection batchSize root).Built := .ofRoot hc h _ _ _
  have hsound := hbuilt.sound
  have hw := columns_of_ofQuery? h
  have hfind : Findable (ofRoot registry .projection batchSize root).fetcher root D :=
    ⟨hsound.formed, rfl, hd, hs, hD⟩
  obtain ⟨g, hprepare⟩ := hsound.exists_prepareRoot hbuilt.idle hs
  obtain ⟨hidle, hfet, hal, hopen, hactive⟩ := hsound.prepareRoot hprepare
  have hs₁ : g.Sound := hsound.of_alike hfet hal (.inr hactive)
  have hw₁ : g.root.columns = [] := hal.columns_eq.trans hw
  refine ⟨g.drain, by rw [Graph.run, hprepare], fun hinged => ?_, fun hend => ?_⟩
  · have hable : Fetcher.Able g.fetcher g.root := hfet ▸ Fetcher.Able.of_alike
      ⟨hsound.formed, rfl, hd, hs, hinged⟩ hal.symm
    exact hs₁.ending_drain hable hw₁ (hfet ▸ hactive)
  · obtain ⟨docs, hdocs, hdoc, hadmits⟩ := hD.stored [] root (mem_located_self root)
    have hahead : Ahead D.pattern g.root := hfind.ahead_of_openCursor hidle hopen (by
      rw [Fetcher.requestFor_none]
      exact hadmits)
    obtain ⟨row, hrow, hfits⟩ := hs₁.exists_row_drain (hfet ▸ hfind.of_alike hal.symm)
      (hal.height_eq ▸ hh) hw₁ hahead hend
    refine ⟨row, hrow, fun hops m hm name value hv => ?_⟩
    obtain ⟨docs', hdocs', hmem, -⟩ := hD.stored hops m hm
    obtain ⟨-, hdot⟩ := hd.documents m (mem_all_of_mem_located hm) docs' hdocs' _ hmem
    have hname : name ∈ (D hops).names := Fields.mem_names_iff.mpr ⟨value, hv⟩
    exact hfits.of_alike hal hops (mem_places_iff.mpr ⟨m, hm⟩) name value (hdot name hname) hv

namespace Shop

/-- The order of the store with regions, with its customer, the customer's region and its product. -/
def choice : Choice
  | [] => [("id", .int 1), ("buyer", .int 1), ("item", .int 5)]
  | ["customer"] => [("id", .int 1), ("area", .int 7)]
  | ["customer", "region"] => [("id", .int 7)]
  | ["product"] => [("id", .int 5)]
  | _ => []

/-- The predicates that lead from orders to the regions of their customers and to products. -/
def deepPredicates : List Filter.Predicate :=
  [⟨"customer/region/id", .compare .ge, "0"⟩, ⟨"product/id", .compare .ge, "0"⟩]

end Shop

/-- The order of the store with regions, two edges deep and document by document. -/
theorem exists_row_of_chosen_shop : ∃ (root : Node) (after : Catalog) (run : Run),
    Node.ofQuery? (Shop.catalog Shop.regional) "Orders" Shop.deepPredicates [] = (.ok root, after) ∧
    root.height = 3 ∧ (ofRoot (Shop.registry Shop.regional) .projection 1 root).run = .ok run ∧
    run.ending = .exhausted ∧ ∃ row ∈ run.rows, ∀ hops m, (hops, m) ∈ root.located → ∀ name value,
      (Shop.choice hops).get? name = some value → row.get? (column hops name) = some (.plain value) := by
  obtain ⟨root, after, hq, htest⟩ := Shop.exists_root (Shop.catalog Shop.regional) "Orders" Shop.deepPredicates []
    (fun root => root.height == 3 && decide (root.Dotless (Shop.registry Shop.regional)) &&
      decide (root.Supplied (Shop.registry Shop.regional)) && decide root.Hinged &&
      decide (root.Chosen (Shop.registry Shop.regional) Shop.choice)) (by decide +kernel)
  obtain ⟨⟨⟨⟨hheight, hdot⟩, hsupplied⟩, hhinged⟩, hchosen⟩ := by
    simpa only [Bool.and_eq_true, decide_eq_true_eq, beq_iff_eq] using htest
  obtain ⟨run, hrun, hends, hrow⟩ := exists_row_of_chosen (.ofConfig _ _) hq (Nat.le_of_eq hheight) hdot
    hsupplied hchosen 1
  exact ⟨root, after, run, hq, hheight, hrun, hends hhinged, hrow (hends hhinged)⟩

namespace Shop

/-- An order that names its customer under the empty name. -/
def blankKey : Store := ⟨.memory, [
  ("Entities", [entity "Order" "Orders" [("customer", "Customer", "")], entity "Customer" "Customers" []]),
  ("Orders", [[("id", .int 1), ("", .int 1)]]),
  ("Customers", [[("id", .int 1)]])]⟩

/-- This order and its customer. -/
def blankChoice : Choice
  | [] => [("id", .int 1), ("", .int 1)]
  | ["customer"] => [("id", .int 1)]
  | _ => []

end Shop

/-- A key without a name gets no index, and the run ends when the hosts are looked up in it: the order and its
customer are a choice, and no row comes. -/
example : ∃ root ∈ (Node.ofQuery? (Shop.catalog Shop.blankKey) "Orders"
      [⟨"customer/id", .compare .ge, "0"⟩] []).1.toOption,
    root.Supplied (Shop.registry Shop.blankKey) ∧ root.Chosen (Shop.registry Shop.blankKey) Shop.blankChoice ∧
    ¬ root.Hinged ∧ ∃ run ∈ (ofRoot (Shop.registry Shop.blankKey) .projection 1 root).run.toOption,
      run.rows = [] ∧ run.ending = .failed (.collection (.undefinedIndex "")) := by
  decide +kernel

end Graph

end PathQuery
