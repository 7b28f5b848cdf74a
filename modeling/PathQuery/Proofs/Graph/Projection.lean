import PathQuery.Graph.Projection
import PathQuery.Proofs.Graph.Join
import PathQuery.Proofs.Result.Layout

/-!
# Proofs/Graph/Projection — the rows of a projection, host by host

A projection gives, for every host that was taken over, the rows that the host makes with the rows of each
child in turn (`spreads`).  They are members of their own, so none is lost and none is merged.
-/

namespace PathQuery.Projection

/-! ## The rows that a host makes -/

/-- A row with the columns of each of the related rows that it joins with, or the row itself. -/
def spreadRow (edge : Navigation) (related : List Entity) (row : Entity) : List Entity :=
  match related.filter (edge.joins row) with
  | [] => [row]
  | found => found.map (withColumns edge row)

/-- The rows that a host makes with the rows at the ends of some edges. -/
def spreads (branches : List (Navigation × List Entity)) (host : Entity) : List Entity :=
  branches.foldl (fun rows branch => rows.flatMap (spreadRow branch.1 branch.2)) [host]

variable {edge : Navigation} {child c : Collection} {row : Entity} {rows : List Entity}

theorem spread_eq (hv : child.Valid) (h : spread edge child row = .ok rows) :
    rows = spreadRow edge child.rows row := by
  obtain ⟨key, hk, h⟩ := bind_eq_ok.mp h
  obtain ⟨ms, hms, h⟩ := bind_eq_ok.mp h
  obtain ⟨-, rfl⟩ := hv.eq_of_membersBy hms
  have hrows : child.rows.filter (edge.joins row) =
      (child.members.filter (·.entity.hasKey edge.relatedKey key)).map (·.entity) := by
    rw [Collection.rows, List.filter_map]
    refine congrArg _ (List.filter_congr fun m _ => ?_)
    rw [Function.comp_apply, Bool.eq_iff_iff, Navigation.joins_iff, Entity.hasKey_iff, hk]
    grind
  rw [spreadRow, hrows]
  split at h
  · rename_i hnil
    cases h
    rw [hnil]
    rfl
  · rename_i hne
    cases h
    split
    · rename_i hnil
      exact absurd (List.map_eq_nil_iff.mp hnil) hne
    · rw [List.map_map]
      rfl

theorem mapM_spread_eq (hv : child.Valid) {lists : List (List Entity)}
    (h : rows.mapM (spread edge child) = .ok lists) :
    lists = rows.map (spreadRow edge child.rows) := by
  induction rows generalizing lists with
  | nil => cases h; rfl
  | cons row rest ih =>
    rw [List.mapM_cons] at h
    obtain ⟨first, hf, h⟩ := bind_eq_ok.mp h
    obtain ⟨others, ho, h⟩ := bind_eq_ok.mp h
    cases h
    rw [spread_eq hv hf, ih ho, List.map_cons]

theorem foldlM_spreadAll_eq {children : List (Collection × Navigation)}
    (hv : ∀ child ∈ children, child.1.Valid) {made : List Entity}
    (h : children.foldlM spreadAll rows = .ok made) :
    made = (children.map fun child => (child.2, child.1.rows)).foldl
      (fun rows branch => rows.flatMap (spreadRow branch.1 branch.2)) rows := by
  induction children generalizing rows with
  | nil => cases h; rfl
  | cons child rest ih =>
    obtain ⟨made₁, hm, h⟩ := foldlM_cons_eq_ok.mp h
    obtain ⟨lists, hl, rfl⟩ := map_eq_ok.mp hm
    rw [ih (fun c hc => hv c (.tail _ hc)) h, mapM_spread_eq (hv child (.head _)) hl, List.map_cons,
      List.foldl_cons, List.flatMap_def]

/-! ## Rows as members of their own -/

/-- A collection without primary key, whose members have the numbers of slots for identities. -/
structure Listed (c : Collection) : Prop extends c.Numbered c.slots.length where
  keyless : c.primaryKey = none

theorem listed_of_slots_eq_nil (hv : c.Valid) (hs : c.slots = []) (hk : c.primaryKey = none) :
    Listed c :=
  ⟨⟨hv, Collection.apart_of_slots_eq_nil hs, by simp [Collection.members, hs]⟩, hk⟩

/-- **Rows that are added come to the end**, all of them. -/
theorem Listed.addRows {d : Collection} (h : Listed c) (ha : addRows c rows = .ok d) :
    Listed d ∧ d.layout = c.layout ∧ d.rows = c.rows ++ rows := by
  induction rows generalizing c with
  | nil => cases ha; exact ⟨h, rfl, by simp⟩
  | cons row rest ih =>
    obtain ⟨c₁, hfirst, ha⟩ := foldlM_cons_eq_ok.mp ha
    obtain ⟨⟨isNew, c₂⟩, hadd, rfl⟩ := map_eq_ok.mp hfirst
    have hnot : ¬ c.Present ⟨c.slots.length, row⟩ :=
      h.not_present fun field hp => nomatch h.keyless.symm.trans hp
    have hadded := (h.valid.add_cases hadd).resolve_left fun hp => hnot hp.1
    have h₁ : Listed c₂ := by
      refine ⟨?_, (Collection.layout_eq_iff.mp hadded.layout_eq).2.1.trans h.keyless⟩
      rw [hadded.slots_eq, List.length_append, List.length_singleton]
      exact h.added hadded
    obtain ⟨hd, hld, hrows⟩ := ih h₁ ha
    refine ⟨hd, hld.trans hadded.layout_eq, ?_⟩
    rw [hrows, Collection.rows_of_slots hadded.slots_eq, List.append_assoc, List.singleton_append]

theorem Listed.addHosts {d : Collection} {children : List (Collection × Navigation)}
    {hosts : List Entity} (hc : ∀ child ∈ children, child.1.Valid) (h : Listed c)
    (ha : hosts.foldlM (addHost children) c = .ok d) :
    Listed d ∧ d.layout = c.layout ∧
      d.rows = c.rows ++ hosts.flatMap (spreads (children.map fun child => (child.2, child.1.rows))) := by
  induction hosts generalizing c with
  | nil => cases ha; exact ⟨h, rfl, by simp⟩
  | cons host rest ih =>
    obtain ⟨c₁, hhost, ha⟩ := foldlM_cons_eq_ok.mp ha
    obtain ⟨made, hm, hadd⟩ := bind_eq_ok.mp hhost
    obtain ⟨h₁, hl₁, hrows₁⟩ := h.addRows hadd
    obtain ⟨hd, hl, hrows⟩ := ih h₁ ha
    refine ⟨hd, hl.trans hl₁, ?_⟩
    rw [hrows, hrows₁, foldlM_spreadAll_eq hc hm, List.flatMap_cons, List.append_assoc]
    rfl

/-! ## Combined rows -/

variable {origin : Origin} {results : Collection}

theorem bare_layout (origin : Origin) (results : Collection) :
    (layout origin results).Bare ∧ (layout origin results).origin = some origin ∧
      (layout origin results).primaryKey = none ∧
      ∀ field, (layout origin results).Tracks field ↔ results.Tracks field ∧ field ≠ "" := by
  obtain ⟨hb, ho, hk, ht⟩ := (Collection.bare_empty (some origin)).withIndexes results.primaryKey.toList
  obtain ⟨hb', ho', hk', ht'⟩ := hb.withIndexes results.indexNames
  refine ⟨hb', ho'.trans ho, hk'.trans hk, fun field => ?_⟩
  rw [layout, ht', ht, Collection.Tracks, Collection.Tracks]
  simp only [Collection.empty, Option.mem_toList]
  simp only [Collection.indexNames, Fields.names, List.map_nil, List.not_mem_nil, reduceCtorEq,
    false_or]
  tauto

theorem target_layout (origin : Origin) (results : Collection) :
    Collection.Target results (layout origin results) := by
  obtain ⟨hb, -, hk, ht⟩ := bare_layout origin results
  exact ⟨hb.valid, hb.slots_eq, .inl hk, fun field hf => ((ht field).mp hf).1⟩

/-- The edges of some collections with their rows. -/
abbrev branches (edges : List Navigation) (children : List Collection) :
    List (Navigation × List Entity) :=
  edges.zip (children.map (·.rows))

theorem mapM_navigation {children : List Collection} {edges : List Navigation}
    (he : List.Forall₂ (fun child edge => child.navigation = .ok edge) children edges)
    {pairs : List (Collection × Navigation)}
    (h : (children.mapM fun child => child.navigation.map fun edge => (child, edge)) = .ok pairs) :
    pairs.map (fun child => (child.2, child.1.rows)) = branches edges children ∧
      ∀ child ∈ pairs, child.1 ∈ children := by
  induction he generalizing pairs with
  | nil => cases h; exact ⟨rfl, by simp⟩
  | cons hchild _ ih =>
    rw [List.mapM_cons, hchild] at h
    obtain ⟨first, hf, h⟩ := bind_eq_ok.mp h
    obtain ⟨rest, hr, h⟩ := bind_eq_ok.mp h
    cases hf
    cases h
    obtain ⟨hmap, hmem⟩ := ih hr
    refine ⟨by rw [List.map_cons, hmap]; rfl, fun child hm => ?_⟩
    rcases List.mem_cons.mp hm with rfl | hm
    · exact .head _
    · exact .tail _ (hmem child hm)

theorem getLast?_branches {children : List Collection} {edges : List Navigation} {last : Collection}
    {edge : Navigation}
    (he : List.Forall₂ (fun child edge => child.navigation = .ok edge) children edges)
    (hlast : children.getLast? = some last) (hn : last.navigation = .ok edge) :
    (branches edges children).getLast? = some (edge, last.rows) := by
  have hlen := he.length_eq
  rw [List.getLast?_eq_getElem?] at hlast ⊢
  obtain ⟨hi, hget⟩ := List.getElem?_eq_some_iff.mp hlast
  have hi' : children.length - 1 < edges.length := hlen ▸ hi
  have hnav := (List.forall₂_iff_get.mp he).2 _ hi hi'
  simp only [List.get_eq_getElem, hget, hn, Except.ok.injEq] at hnav
  have hl : (branches edges children).length = children.length := by simp [hlen]
  rw [hl, branches, List.getElem?_eq_getElem (by simpa [hlen] using hi'), List.getElem_zip,
    List.getElem_map, hget, hnav]

/-- **The rows of a combination** that is not cut down. -/
theorem rows_combine {children : List Collection} {edges : List Navigation}
    (he : List.Forall₂ (fun child edge => child.navigation = .ok edge) children edges)
    (hne : children ≠ []) (hc : ∀ child ∈ children, child.Valid) (hv : results.Valid)
    (ha : results.Apart) (h : combine origin [] results children = .ok c) :
    Listed c ∧ c.layout = (layout origin results).layout ∧
      ∃ last, (branches edges children).getLast? = some last ∧
        c.rows = (Collection.taken last.1 last.2 results.members).flatMap fun m =>
          spreads (branches edges children) m.entity := by
  obtain ⟨last, hlast⟩ := Option.ne_none_iff_exists'.mp
    (fun hn => hne (List.getLast?_eq_none_iff.mp hn) : children.getLast? ≠ none)
  rw [combine, hlast] at h
  obtain ⟨edge, hedge, h⟩ := bind_eq_ok.mp h
  obtain ⟨seeded, hseed, h⟩ := bind_eq_ok.mp h
  obtain ⟨pairs, hp, h⟩ := bind_eq_ok.mp h
  obtain ⟨combined, hhosts, h⟩ := bind_eq_ok.mp h
  cases h
  obtain ⟨hvs, -, hls, hmem⟩ := Collection.members_moveJoined hv ha (target_layout origin results) hseed
  obtain ⟨hmap, hin⟩ := mapM_navigation he hp
  have hkeyless : seeded.primaryKey = none :=
    (Collection.layout_eq_iff.mp hls).2.1.trans (bare_layout origin results).2.2.1
  have hempty : Listed seeded.emptyLike :=
    listed_of_slots_eq_nil hvs.toWellLaid.emptyLike rfl hkeyless
  obtain ⟨hd, hl, hrows⟩ := hempty.addHosts (fun child hm => hc child.1 (hin child hm)) hhosts
  refine ⟨hd, hl.trans ((Collection.layout_emptyLike seeded).trans hls), (edge, last.rows),
    getLast?_branches he hlast hedge, ?_⟩
  rw [hrows, hmap, Collection.rows, Collection.members_emptyLike, List.map_nil, List.nil_append,
    Collection.rows, hmem, List.flatMap_map]

end PathQuery.Projection
