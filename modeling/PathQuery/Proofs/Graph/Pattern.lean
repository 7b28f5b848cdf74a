import PathQuery.Proofs.Graph.Flat

/-!
# Proofs/Graph/Pattern — what is asked of the columns of every node at once

A pattern asks something of the fields at each place of a tree.  A flat row fits it if under each place stand
fields that satisfy it (`Fits`); so the row's host satisfies the pattern at the root, and the rows that the host
was joined with fit the pattern under their edges.  If at most one document of each resource satisfies the
pattern at its place, a node gives at most one row at a time that fits (`atMostOne_fits`).
-/

namespace PathQuery

open Projection (spreads Columned Separate AtMostOne)

/-! ## Places and patterns -/

/-- What stands under each name. -/
abbrev View := String → Option FieldValue

/-- Something asked of what stands at each place, a place being the names of the edges that lead to it. -/
abbrev Pattern := List String → View → Prop

/-- The pattern behind an edge. -/
def Pattern.under (p : Pattern) (edge : String) : Pattern := fun hops => p (edge :: hops)

/-- What is asked depends on names without dots alone. -/
def Pattern.Local (p : Pattern) : Prop :=
  ∀ hops (v w : View), (∀ name, DotFree name → v name = w name) → p hops v → p hops w

theorem Pattern.Local.under {p : Pattern} (h : p.Local) (edge : String) : (p.under edge).Local :=
  fun hops => h (edge :: hops)

namespace Node

variable {f : Fetcher} {values : Option (List Value)} {n m : Node} {c : Collection} {p : Pattern}
  {r : Registry} {view : View}

/-- The places of a tree. -/
def places (n : Node) : List (List String) := n.located.map (·.1)

theorem mem_places_iff {hops : List String} : hops ∈ n.places ↔ ∃ m, (hops, m) ∈ n.located := by
  simp only [places, List.mem_map, Prod.exists, exists_eq_right, exists_and_right]

theorem mem_places {hops : List String} : hops ∈ n.places ↔ hops = [] ∨
    ∃ child ∈ n.children, ∃ rest ∈ child.places, hops = child.edge.name :: rest := by
  rw [mem_places_iff]
  constructor
  · rintro ⟨k, hk⟩
    rcases mem_located.mp hk with ⟨rfl, -⟩ | ⟨child, hc, rest, hr, rfl⟩
    · exact .inl rfl
    · exact .inr ⟨child, hc, rest, mem_places_iff.mpr ⟨k, hr⟩, rfl⟩
  · rintro (rfl | ⟨child, hc, rest, hr, rfl⟩)
    · exact ⟨n, mem_located_self n⟩
    · obtain ⟨k, hk⟩ := mem_places_iff.mp hr
      exact ⟨k, mem_located_child hc hk⟩

/-- Whether what stands under the names of a row fits a pattern, at every place of a tree. -/
def Fits (n : Node) (p : Pattern) (view : View) : Prop :=
  ∀ hops ∈ n.places, p hops fun name => view (column hops name)

/-- **A row fits** if its own fields do, and under each edge the columns do. -/
theorem fits_iff : n.Fits p view ↔ p [] view ∧ ∀ child ∈ n.children,
    child.Fits (p.under child.edge.name) fun name => view s!"{child.edge.name}.{name}" := by
  constructor
  · intro h
    refine ⟨h [] (mem_places.mpr (.inl rfl)), fun child hc hops hh => ?_⟩
    exact h (child.edge.name :: hops) (mem_places.mpr (.inr ⟨child, hc, hops, hh, rfl⟩))
  · rintro ⟨hown, hchildren⟩ hops hh
    rcases mem_places.mp hh with rfl | ⟨child, hc, rest, hr, rfl⟩
    · exact hown
    · exact hchildren child hc rest hr

theorem Alike.places_subset (h : n.Alike m) {hops : List String} (hh : hops ∈ n.places) :
    hops ∈ m.places := by
  obtain ⟨k, hk⟩ := mem_places_iff.mp hh
  obtain ⟨k', hk', -⟩ := h.exists_located hk
  exact mem_places_iff.mpr ⟨k', hk'⟩

theorem Fits.of_alike (h : n.Fits p view) (ha : n.Alike m) : m.Fits p view :=
  fun hops hh => h hops (ha.symm.places_subset hh)

/-! ## Rows that fit -/

/-- What stands in rows of a child that fit the pattern under its edge. -/
def fitting (n : Node) (p : Pattern) (b : Navigation × List Entity) (view : View) : Prop :=
  ∀ child ∈ n.children, child.edge = b.1 → child.Fits (p.under child.edge.name) view

theorem fits_of_columned {host row : Entity} (hlen : n.progress.childResults.length = n.children.length)
    (hp : p.Local) (hcol : Columned n.held host row) :
    n.Fits p row.get? ↔ p [] host.get? ∧ ∀ b ∈ n.held, n.fitting p b (row.under b.1.name) := by
  rw [fits_iff]
  refine and_congr ⟨hp [] _ _ fun name hn => hcol.own name hn,
    hp [] _ _ fun name hn => (hcol.own name hn).symm⟩ ⟨fun h b hb child hc he => ?_, fun h child hc => ?_⟩
  · rw [← he]
    exact h child hc
  · obtain ⟨i, hi⟩ := List.mem_iff_getElem?.mp hc
    obtain ⟨d, hd⟩ := exists_childResult hlen hi
    exact h _ (mem_held.mpr ⟨i, child, d, hi, hd, rfl⟩) child hc rfl

/-- What a pattern asks is met by no absent fields, and by at most one document of each resource. -/
structure Single (r : Registry) (n : Node) (p : Pattern) : Prop where
  isLocal : p.Local
  present : ∀ hops ∈ n.places, ¬ p hops fun _ => none
  single : ∀ hops m, (hops, m) ∈ n.located → ∀ docs, r.documentsFor m.plan.request = .ok docs →
    AtMostOne (fun doc => p hops (Entity.ofDocument doc).get?) docs

theorem Single.child (h : n.Single r p) {child : Node} (hc : child ∈ n.children) :
    child.Single r (p.under child.edge.name) where
  isLocal := h.isLocal.under _
  present hops hh := h.present _ (mem_places.mpr (.inr ⟨child, hc, hops, hh, rfl⟩))
  single _ m hm := h.single _ m (mem_located_child hc hm)

theorem Single.of_alike (h : n.Single r p) (ha : n.Alike m) : m.Single r p where
  isLocal := h.isLocal
  present _ hh := h.present _ (ha.symm.places_subset hh)
  single hops k hk docs hdocs := by
    obtain ⟨k', hk', hak⟩ := ha.symm.exists_located hk
    exact h.single hops k' hk' docs (hak.plan_eq ▸ hdocs)

/-- **A row that fits** was made by a host that satisfies the pattern, from rows that fit under their
edges and join with the host. -/
theorem Single.exists_of_fits {host row : Entity} (h : n.Single r p)
    (hlen : n.progress.childResults.length = n.children.length) (hcol : Columned n.held host row)
    (hfits : n.Fits p row.get?) : p [] host.get? ∧ ∀ (i : Nat) (child : Node) (d : Collection),
      n.children[i]? = some child → n.progress.childResults[i]? = some d →
      ∃ x ∈ d.rows, child.edge.joins host x = true ∧ child.Fits (p.under child.edge.name) x.get? := by
  obtain ⟨hown, hall⟩ := (fits_of_columned hlen h.isLocal hcol).mp hfits
  refine ⟨hown, fun i child d hc hd => ?_⟩
  have hb := mem_held.mpr ⟨i, child, d, hc, hd, rfl⟩
  have hunder := hall _ hb child (List.mem_of_getElem? hc) rfl
  rcases hcol.branch _ hb with hnone | ⟨x, hx, hj, heq⟩
  · refine absurd (hunder [] (mem_places.mpr (.inl rfl))) ?_
    have hview : (row.under child.edge.name) = fun _ => none := funext hnone
    rw [hview]
    exact (h.child (List.mem_of_getElem? hc)).present [] (mem_places.mpr (.inl rfl))
  · rw [heq] at hunder
    exact ⟨x, hx, hj, hunder⟩

/-! ## One row at a time -/

/-- Hosts that are taken are told apart as before. -/
theorem taken_perm (edge : Navigation) (rows : List Entity) (ms : List Member) :
    (Collection.taken edge rows ms).Perm (ms.filter fun m => rows.any (edge.joins m.entity)) := by
  induction rows generalizing ms with
  | nil => simp [Collection.taken]
  | cons row rest ih =>
    rw [Collection.taken]
    refine ((ih _).append_left _).trans ?_
    rw [List.filter_filter]
    have hsplit := List.filter_append_perm (fun m : Member => edge.joins m.entity row)
      (ms.filter fun m => (row :: rest).any (edge.joins m.entity))
    rw [List.filter_filter, List.filter_filter] at hsplit
    refine List.Perm.trans (List.Perm.of_eq ?_) hsplit
    congr 1
    · refine List.filter_congr fun m _ => ?_
      cases hj : edge.joins m.entity row <;> simp [hj]
    · refine List.filter_congr fun m _ => ?_
      cases hj : edge.joins m.entity row <;> simp [hj]

theorem AtMostOne.of_perm {α : Type} {P : α → Prop} {l l' : List α} (h : AtMostOne P l)
    (hp : l'.Perm l) : AtMostOne P l' :=
  (hp.pairwise_iff fun hab hba => hab ⟨hba.2, hba.1⟩).mpr h

/-- At most one of the rows of an open node satisfies the pattern. -/
theorem Single.rows (h : n.Single f.registry p) {past batch ahead : List Document}
    (ho : n.Open f values past batch ahead) :
    AtMostOne (fun m => p [] m.entity.get?) n.progress.results.members := by
  obtain ⟨docs, hdocs, hall⟩ := ho.exists_sublist
  obtain ⟨got, hsub, hrows, -⟩ := ho.rows
  have hgot : got.Sublist docs := by
    refine hsub.trans (List.Sublist.trans ?_ hall)
    rw [List.append_assoc]
    exact (List.sublist_append_left _ _).trans (List.sublist_append_right _ _)
  have hone := (h.single [] n (mem_located_self n) docs hdocs).sublist hgot
  have hmap : AtMostOne (fun row : Entity => p [] row.get?) n.progress.results.rows := by
    rw [hrows]
    exact List.pairwise_map.mpr hone
  exact List.pairwise_map.mp hmap

/-- The rows that one host makes fit at most once, if what is held under each edge does. -/
theorem Single.atMostOne_spreads (hs : n.Single f.registry p) (hd : n.Dotless f.registry)
    (hlen : n.progress.childResults.length = n.children.length) {past batch ahead : List Document}
    (ho : n.Open f values past batch ahead) (hsep : Separate n.held)
    (hone : ∀ b ∈ n.held, AtMostOne (fun x : Entity => n.fitting p b x.get?) b.2) {m : Member}
    (hm : m ∈ n.progress.results.members) :
    AtMostOne (fun row : Entity => n.Fits p row.get?) (spreads n.held m.entity) := by
  obtain ⟨hnodup, hdot⟩ := ho.names_of_mem hd hm
  have hfits : ∀ row ∈ spreads n.held m.entity, n.Fits p row.get? →
      ∀ b ∈ n.held, n.fitting p b (row.under b.1.name) := fun row hrow hfits =>
    ((fits_of_columned hlen hs.isLocal (ho.columned hd hsep hm hrow)).mp hfits).2
  exact (Projection.atMostOne_spreads hsep hnodup hdot hone).imp_of_mem fun hx hy hne hboth =>
    hne ⟨hfits _ hx hboth.1, hfits _ hy hboth.2⟩

/-- **At most one row that a node gives** fits. -/
theorem Active.atMostOne_fits (hf : n.Formed) (ha : Active f values n) (hp : f.combination = .projection)
    (hd : n.Dotless f.registry) (hs : n.Single f.registry p) (hu : n.Uncut c) :
    AtMostOne (fun row : Entity => n.Fits p row.get?) c.rows := by
  induction n using Node.induction generalizing values c p with
  | node n ih =>
    obtain ⟨past, batch, ahead, ho⟩ := ha.exists_open
    obtain ⟨hsep, -⟩ := ha.columned hf hp hd hu
    rcases (ha.flat hf hp hu).rows with ⟨-, hrows⟩ | ⟨last, -, hrows⟩
    · rw [hrows]
      refine List.pairwise_map.mpr ((hs.rows ho).imp fun hne hboth => hne ⟨?_, ?_⟩)
      · exact (fits_iff.mp hboth.1).1
      · exact (fits_iff.mp hboth.2).1
    · rw [hrows, AtMostOne, List.pairwise_flatMap]
      constructor
      · -- rows of one host fit under some edge only once
        refine fun m hm => hs.atMostOne_spreads hd hu.length_eq ho hsep (fun b hb => ?_)
          (Collection.mem_taken.mp hm).1
        obtain ⟨i, child, d, hc, hk, rfl⟩ := mem_held.mp hb
        obtain ⟨hmem, vals, hactive, hud⟩ := ha.exists_uncut hf hp hc hk
        refine (ih child hmem (hf.child hmem) hactive (hd.child hmem) (hs.child hmem)
          hud).imp fun hne hboth => hne ⟨?_, ?_⟩
        · exact hboth.1 child hmem rfl
        · exact hboth.2 child hmem rfl
      · -- of the hosts at most one satisfies the pattern
        have hhost : ∀ m ∈ n.progress.results.members, ∀ row ∈ spreads n.held m.entity,
            n.Fits p row.get? → p [] m.entity.get? := fun m hm row hrow hfits =>
          ((fits_of_columned hu.length_eq hs.isLocal (ho.columned hd hsep hm hrow)).mp hfits).1
        have hhosts := AtMostOne.of_perm ((hs.rows ho).filter _)
          (taken_perm last.1 last.2 n.progress.results.members)
        refine hhosts.imp_of_mem fun {a b} hta htb hne x hx y hy hboth => hne ⟨?_, ?_⟩
        · exact hhost a (Collection.mem_taken.mp hta).1 x hx hboth.1
        · exact hhost b (Collection.mem_taken.mp htb).1 y hy hboth.2

end Node

end PathQuery
