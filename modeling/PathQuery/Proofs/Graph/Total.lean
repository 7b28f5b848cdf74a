import PathQuery.Proofs.Graph.Supply

/-!
# Proofs/Graph/Total — fetching does not fail where keys are there

Where the documents of every node have keys in all the fields that rows are found by, every step that a fetch
takes has what it looks for: a cursor can be opened and pulled from, a child's values can be asked for, and a
projection finds the hosts and the rows that join.  So no fetch fails (`fetchWithin_ne_error`).
-/

namespace PathQuery

/-! ## Combining -/

namespace Projection

variable {edge : Navigation} {child c d results : Collection} {row : Entity} {rows : List Entity}

theorem isKeyed_congr {a b : Entity} {field : String} (h : a.get? field = b.get? field)
    (hk : a.IsKeyed field) : b.IsKeyed field := by
  rw [Entity.IsKeyed, ← keyOf_congr h]
  exact hk

theorem mem_names_of_isKeyed {field : String} (hk : row.IsKeyed field) : field ∈ row.names := by
  obtain ⟨key, hk⟩ := hk
  by_contra hn
  rw [Entity.keyOf, Entity.value?, Fields.get?_eq_none_iff.mpr hn] at hk
  obtain ⟨⟩ := hk

/-- A row that has its key joins with the rows of a child that finds them by theirs. -/
theorem exists_spread (hv : child.Valid) (ht : child.Tracks edge.relatedKey)
    (hk : row.IsKeyed edge.hostKey) : ∃ made, spread edge child row = .ok made := by
  obtain ⟨key, hkey⟩ := hk
  rw [spread, hkey]
  simp only [bind, Except.bind, hv.membersBy_eq ht]
  split <;> exact ⟨_, rfl⟩

theorem exists_mapM_spread (hv : child.Valid) (ht : child.Tracks edge.relatedKey)
    (hk : ∀ row ∈ rows, row.IsKeyed edge.hostKey) :
    ∃ lists, rows.mapM (spread edge child) = .ok lists := by
  induction rows with
  | nil => exact ⟨[], rfl⟩
  | cons row rest ih =>
    obtain ⟨made, hm⟩ := exists_spread hv ht (hk row (.head _))
    obtain ⟨lists, hl⟩ := ih fun r hr => hk r (.tail _ hr)
    exact ⟨made :: lists, by rw [List.mapM_cons, hm, hl]; rfl⟩

/-- The rows that a row makes have its fields of names without dots. -/
theorem get?_of_mem_spreadRow {related : List Entity} {row' : Entity} {name : String} (hn : DotFree name)
    (hm : row' ∈ spreadRow edge related row) : row'.get? name = row.get? name := by
  rcases mem_spreadRow (b := (edge, related)).mp hm with ⟨-, rfl⟩ | ⟨x, -, -, rfl⟩
  · rfl
  · exact get?_withColumns_of_dotFree hn

theorem exists_foldlM_spreadAll {children : List (Collection × Navigation)}
    (hc : ∀ child ∈ children, child.1.Valid ∧ child.1.Tracks child.2.relatedKey)
    (hk : ∀ child ∈ children, DotFree child.2.hostKey ∧ ∀ row ∈ rows, row.IsKeyed child.2.hostKey) :
    ∃ made, children.foldlM spreadAll rows = .ok made := by
  induction children generalizing rows with
  | nil => exact ⟨rows, rfl⟩
  | cons child rest ih =>
    obtain ⟨hv, ht⟩ := hc child (.head _)
    obtain ⟨lists, hl⟩ := exists_mapM_spread hv ht (hk child (.head _)).2
    have hleft : ∀ k ∈ rest, DotFree k.2.hostKey ∧ ∀ row ∈ lists.flatten, row.IsKeyed k.2.hostKey := by
      intro k hm
      obtain ⟨hdot, hkeyed⟩ := hk k (.tail _ hm)
      refine ⟨hdot, fun row' hrow' => ?_⟩
      rw [mapM_spread_eq hv hl, ← List.flatMap_def] at hrow'
      obtain ⟨row, hrow, hrow'⟩ := List.mem_flatMap.mp hrow'
      exact isKeyed_congr (get?_of_mem_spreadRow hdot hrow').symm (hkeyed row hrow)
    obtain ⟨made, hm⟩ := ih (fun k h => hc k (.tail _ h)) hleft
    refine ⟨made, foldlM_cons_eq_ok.mpr ⟨lists.flatten, ?_, hm⟩⟩
    rw [spreadAll, hl]
    rfl

theorem exists_addRows (hn : Listed c) (hk : ∀ row ∈ rows, ∀ field, c.Tracks field → row.IsKeyed field) :
    ∃ d, addRows c rows = .ok d := by
  induction rows generalizing c with
  | nil => exact ⟨c, rfl⟩
  | cons row rest ih =>
    obtain ⟨isNew, d, hadd⟩ := Collection.exists_add (m := ⟨c.slots.length, row⟩) (hk row (.head _))
    have hfirst : (c.add ⟨c.slots.length, row⟩).map (·.2) = .ok d := by
      rw [hadd]
      rfl
    have hone : addRows c [row] = .ok d := foldlM_cons_eq_ok.mpr ⟨d, hfirst, rfl⟩
    obtain ⟨hnd, hl, -⟩ := hn.addRows hone
    obtain ⟨d', hd'⟩ := ih hnd fun r hr field hf =>
      hk r (.tail _ hr) field ((Collection.tracks_congr hl field).mp hf)
    exact ⟨d', foldlM_cons_eq_ok.mpr ⟨d, hfirst, hd'⟩⟩

/-- A host can be multiplied by the rows of its children: no name of it has a dot, and it has the keys that
it is found by and those of the edges. -/
structure Spreadable (c : Collection) (edges : List Navigation) (host : Entity) : Prop where
  dotFree : ∀ name ∈ host.names, DotFree name
  keyed : ∀ field, c.Tracks field → host.IsKeyed field
  joins : ∀ edge ∈ edges, host.IsKeyed edge.hostKey

theorem exists_addHosts {children : List (Collection × Navigation)} {hosts : List Entity}
    (hc : ∀ child ∈ children, child.1.Valid ∧ child.1.Tracks child.2.relatedKey) (hn : Listed c)
    (hs : ∀ host ∈ hosts, Spreadable c (children.map (·.2)) host) :
    ∃ d, hosts.foldlM (addHost children) c = .ok d := by
  induction hosts generalizing c with
  | nil => exact ⟨c, rfl⟩
  | cons host rest ih =>
    obtain ⟨hdot, hkeyed, hjoins⟩ := hs host (.head _)
    obtain ⟨made, hmade⟩ : ∃ made, children.foldlM spreadAll [host] = .ok made := by
      refine exists_foldlM_spreadAll hc fun child hm => ?_
      have hk := hjoins _ (List.mem_map_of_mem hm)
      exact ⟨hdot _ (mem_names_of_isKeyed hk), fun row hrow => List.mem_singleton.mp hrow ▸ hk⟩
    obtain ⟨d, hd⟩ : ∃ d, addRows c made = .ok d := by
      refine exists_addRows hn fun row hrow field hf => ?_
      rw [foldlM_spreadAll_eq (fun k hk => (hc k hk).1) hmade] at hrow
      refine isKeyed_congr (get?_of_mem_spreads (fun b _ name he => ?_) hrow).symm (hkeyed field hf)
      exact not_dotFree_dotted _ _ (he ▸ hdot field (mem_names_of_isKeyed (hkeyed field hf)))
    obtain ⟨hnd, hl, -⟩ := hn.addRows hd
    obtain ⟨d', hd'⟩ := ih hnd fun k hm => ⟨(hs k (.tail _ hm)).dotFree, fun field hf =>
      (hs k (.tail _ hm)).keyed field ((Collection.tracks_congr hl field).mp hf), (hs k (.tail _ hm)).joins⟩
    refine ⟨d', foldlM_cons_eq_ok.mpr ⟨d, ?_, hd'⟩⟩
    rw [addHost, hmade]
    exact hd

theorem exists_mapM_navigation {children : List Collection} {edges : List Navigation}
    (he : List.Forall₂ (fun child edge => child.navigation = .ok edge) children edges) :
    (children.mapM fun child => child.navigation.map fun edge => (child, edge)) =
      .ok (children.zip edges) := by
  induction he with
  | nil => rfl
  | cons hchild _ ih =>
    rw [List.mapM_cons, hchild, ih]
    rfl

theorem exists_edge {children : List Collection} {edges : List Navigation}
    (he : List.Forall₂ (fun child edge => child.navigation = .ok edge) children edges)
    (hm : child ∈ children) : ∃ edge, (child, edge) ∈ children.zip edges ∧ child.navigation = .ok edge := by
  induction he with
  | nil => obtain ⟨⟩ := hm
  | cons hchild _ ih =>
    rcases List.mem_cons.mp hm with rfl | hm
    · exact ⟨_, .head _, hchild⟩
    · obtain ⟨edge, hin, hn⟩ := ih hm
      exact ⟨edge, .tail _ hin, hn⟩

/-- **Combining does not fail** where the hosts have keys in all fields that they are found by, and the
children find their rows by the keys of their edges. -/
theorem exists_combine {origin : Origin} {children : List Collection} {edges : List Navigation}
    (he : List.Forall₂ (fun child edge => child.navigation = .ok edge) children edges)
    (hc : ∀ pair ∈ children.zip edges, pair.1.Valid ∧ pair.1.Tracks pair.2.relatedKey ∧
      results.Tracks pair.2.hostKey)
    (hv : results.Valid) (ha : results.Apart)
    (hdot : ∀ m ∈ results.members, ∀ name ∈ m.entity.names, DotFree name) :
    ∃ c, combine origin [] results children = .ok c := by
  rw [combine]
  cases hlast : children.getLast? with
  | none => exact ⟨results, rfl⟩
  | some last =>
    obtain ⟨edge, hin, hnav⟩ := exists_edge he (List.mem_of_getLast? hlast)
    obtain ⟨hvl, htl, hth⟩ := hc _ hin
    have htarget := target_layout origin results
    have hrelated : ∀ row ∈ last.rows, row.IsKeyed edge.relatedKey := fun row hrow => by
      obtain ⟨m, hm, rfl⟩ := List.mem_map.mp hrow
      exact hvl.keyed _ htl m hm
    obtain ⟨seeded, hseed⟩ := Collection.exists_moveJoined hv ha htarget hth hrelated
    obtain ⟨hvs, -, hls, hmem⟩ := Collection.members_moveJoined hv ha htarget hseed
    obtain ⟨-, -, hkeyless, htracks⟩ := bare_layout origin results
    have hempty : Listed seeded.emptyLike := listed_of_slots_eq_nil hvs.toWellLaid.emptyLike rfl
      ((Collection.layout_eq_iff.mp hls).2.1.trans hkeyless)
    have hof : ∀ field, seeded.emptyLike.Tracks field → results.Tracks field := fun field hf =>
      ((htracks field).mp ((Collection.tracks_congr
        ((Collection.layout_emptyLike seeded).trans hls) field).mp hf)).1
    have hspread : ∀ host ∈ seeded.rows,
        Spreadable seeded.emptyLike ((children.zip edges).map (·.2)) host := by
      intro host hhost
      obtain ⟨m, hm, rfl⟩ := List.mem_map.mp hhost
      rw [hmem] at hm
      have hm := (Collection.mem_taken.mp hm).1
      refine ⟨hdot m hm, fun field hf => hv.keyed field (hof field hf) m hm, fun e he => ?_⟩
      obtain ⟨pair, hp, rfl⟩ := List.mem_map.mp he
      exact hv.keyed _ (hc pair hp).2.2 m hm
    obtain ⟨combined, hcombined⟩ := exists_addHosts (fun pair hp => ⟨(hc pair hp).1, (hc pair hp).2.1⟩)
      hempty hspread
    exact ⟨combined, bind_eq_ok.mpr ⟨edge, hnav, bind_eq_ok.mpr ⟨seeded, hseed, bind_eq_ok.mpr
      ⟨_, exists_mapM_navigation he, bind_eq_ok.mpr ⟨combined, hcombined, rfl⟩⟩⟩⟩⟩

end Projection

/-! ## Fetching -/

namespace Fetcher

open Node

/-- What a tree needs for fetching not to fail. -/
structure Able (f : Fetcher) (n : Node) : Prop where
  formed : n.Formed
  projection : f.combination = .projection
  dotless : n.Dotless f.registry
  supplied : n.Supplied f.registry
  hinged : n.Hinged

variable {f : Fetcher} {values : Option (List Value)} {n n' : Node} {i : Nat} {o : Outcome}

theorem Able.child (h : Able f n) {child : Node} (hc : child ∈ n.children) : Able f child :=
  ⟨h.formed.child hc, h.projection, h.dotless.child hc, h.supplied.child hc, h.hinged.child hc⟩

theorem Able.of_alike (h : Able f n) (ha : n.Alike n') : Able f n' :=
  ⟨h.formed.of_alike ha, h.projection, h.dotless.of_alike ha, h.supplied.of_alike ha, h.hinged.of_alike ha⟩

variable {fetch : Node → Except Failure Outcome × Node} {child : Node}

theorem exists_openCursor (hf : n.Formed) (hs : n.Supplied f.registry) (hi : n.Idle)
    (values : Option (List Value)) : ∃ n', f.openCursor values n = (.ok (), n') := by
  obtain ⟨docs, hdocs, -⟩ := hs n (mem_all_self n)
  obtain ⟨b, hb, -, -, -, hg⟩ := Registry.fetchBatches_of_documentsFor
    ((documentsFor_requestFor f.registry n values).trans hdocs) f.batchSize
  rw [openCursor, if_neg (by simp [hi.status]), hb]
  simp only
  split
  · exact ⟨_, rfl⟩
  · obtain ⟨k, b', c, hbatch⟩ := BatchCursor.exists_nextBatch hf.laid.wellLaid hg fun doc hd field hf =>
      hs.isKeyed hdocs (List.mem_filter.mp hd).1 hf
    rw [hbatch]
    exact ⟨_, rfl⟩

theorem exists_pull {b : BatchCursor} (h : Able f n) (ha : Active f values n)
    (hb : n.progress.cursor = some b) : ∃ k n', pull n b = (.ok k, n') := by
  obtain ⟨past, batch, ahead, ho⟩ := ha.exists_open
  obtain ⟨docs, hdocs, hsource⟩ := ho.source
  obtain ⟨b', hb', -, hg⟩ := ho.cursor
  cases hb.symm.trans hb'
  obtain ⟨k, b₁, c, hbatch⟩ := BatchCursor.exists_nextBatch ho.valid.toWellLaid hg fun doc hd field hf => by
    have hmem : doc ∈ Cursor.matching (requestFor n values).restriction docs :=
      hsource ▸ List.mem_append_right _ hd
    exact h.supplied.isKeyed hdocs (List.mem_filter.mp hmem).1 hf
  exact ⟨k, _, by rw [pull, hbatch]⟩

/-- What a child holds has the keys of the child's edge. -/
theorem Able.isKeyed_rows (h : Able f n) (ha : Active f values n) {c : Collection}
    (hc : n.children[i]? = some child) (hd : n.progress.childResults[i]? = some c) :
    c.Valid ∧ c.navigation = .ok child.edge ∧ c.Tracks child.edge.relatedKey := by
  obtain ⟨hflat, hnav⟩ := ha.flat_child h.formed h.projection hc hd
  obtain ⟨-, hrelated, hne⟩ := h.hinged.tracks h.formed (List.mem_of_getElem? hc)
  exact ⟨hflat.valid, hnav, hflat.tracks _ hne hrelated⟩

theorem At.exists_valuesFor (h : Able f n) (hat : At f values i n) (hc : n.children[i]? = some child) :
    ∃ vals, valuesFor n i child = .ok vals := by
  have hmem := List.mem_of_getElem? hc
  obtain ⟨past, batch, ahead, ho⟩ := hat.active.exists_open
  obtain ⟨edge, hj⟩ := h.formed.joint hmem
  obtain ⟨hhost, -⟩ := h.hinged.tracks h.formed hmem
  rw [hj.edge_child] at hhost
  have hkeyed := ho.valid.keyed _ hhost
  rw [valuesFor, hj.edge_eq]
  cases i with
  | zero => exact Collection.exists_distinctValues hkeyed
  | succ i =>
    have hlt := (List.getElem?_eq_some_iff.mp hc).1
    have hk := List.getElem?_eq_getElem (Nat.lt_of_succ_lt hlt)
    have hd := List.getElem?_eq_getElem (Nat.lt_of_lt_of_le (Nat.lt_succ_self i) hat.reached)
    obtain ⟨hvalid, hnav, htracks⟩ := h.isKeyed_rows hat.active hk hd
    obtain ⟨hhost', -⟩ := h.hinged.tracks h.formed (List.mem_of_getElem? hk)
    obtain ⟨joined, hjoined⟩ := Collection.exists_joining ho.valid ho.apart hnav hhost' fun row hrow => by
      obtain ⟨m, hm, rfl⟩ := List.mem_map.mp hrow
      exact hvalid.keyed _ htracks m hm
    obtain ⟨-, hjoin⟩ := Collection.mem_joining ho.valid ho.apart hnav hjoined
    obtain ⟨vals, hvals⟩ := Collection.exists_distinctValues (c := joined) fun m hm =>
      hkeyed m ((hjoin m).mp hm).1
    refine ⟨vals, ?_⟩
    simp only [hd, hjoined]
    exact hvals

/-- A node whose children have all given results can be combined with them. -/
theorem Able.exists_combine (h : Able f n) (hw : n.isRoot = true → n.columns = [])
    (ha : Active f values n) (hlen : n.progress.childResults.length = n.children.length) :
    ∃ c, f.combination.combine n n.progress.results n.progress.childResults = .ok c := by
  obtain ⟨past, batch, ahead, ho⟩ := ha.exists_open
  have hwanted : (if n.isRoot then n.columns else []) = [] := by
    split
    · exact hw ‹_›
    · rfl
  rw [h.projection, Combination.combine]
  simp only [hwanted]
  refine Projection.exists_combine (forall₂_edges hlen fun i child d hc hd =>
    (h.isKeyed_rows ha hc hd).2.1) (fun pair hp => ?_) ho.valid ho.apart fun m hm =>
      (ho.names_of_mem h.dotless hm).2
  obtain ⟨i, hi⟩ := List.mem_iff_getElem?.mp hp
  obtain ⟨hd, he⟩ := List.getElem?_zip_eq_some.mp hi
  rw [List.getElem?_map] at he
  obtain ⟨child, hc, he⟩ := Option.map_eq_some_iff.mp he
  obtain ⟨hvalid, -, htracks⟩ := h.isKeyed_rows ha hc hd
  rw [← he]
  exact ⟨hvalid, htracks, (h.hinged.tracks h.formed (List.mem_of_getElem? hc)).1⟩

/-- A way of fetching that does not fail. -/
def Total (f : Fetcher) (fetch : Node → Except Failure Outcome × Node) : Prop :=
  ∀ n values, Able f n → (n.isRoot = true → n.columns = []) → Active f values n →
    ∃ o n', fetch n = (.ok o, n')

theorem exists_turn (htotal : Total f fetch) (h : Able f n) (hat : At f values i n)
    (hc : n.children[i]? = some child) : ∃ o child', f.turn fetch n i child = (.ok o, child') := by
  have hmem := List.mem_of_getElem? hc
  obtain ⟨edge, hj⟩ := h.formed.joint hmem
  have hroot : child.isRoot = true → child.columns = [] := hj.columns_eq
  have hidle : child.joinedStatus = .unready → child.Idle := fun hs => by
    by_contra hi
    obtain ⟨-, vals, -, hactive⟩ := hat.active.exists_vals hc hi
    exact hactive.joinedStatus_ne hs
  refine turn_rule (fun _ => ⟨_, _, rfl⟩) (fun hs => ?_) (fun e _ hv => ?_) (fun vals e m hs _ hopen => ?_)
    fun vals m hs _ hopen => ?_
  · have hi : ¬ child.Idle := fun hi => by
      obtain ⟨⟩ := hi.joinedStatus.symm.trans hs
    obtain ⟨-, vals, -, hactive⟩ := hat.active.exists_vals hc hi
    exact htotal child _ (h.child hmem) hroot hactive
  · obtain ⟨vals, hvals⟩ := hat.exists_valuesFor h hc
    obtain ⟨⟩ := hv.symm.trans hvals
  · obtain ⟨opened, hopened⟩ := exists_openCursor (h.child hmem).formed (h.child hmem).supplied (hidle hs)
      (some vals)
    obtain ⟨⟩ := hopen.symm.trans hopened
  · obtain ⟨hal, hactive⟩ := active_of_openCursor (h.child hmem).formed (hidle hs) hopen
    exact htotal m _ ((h.child hmem).of_alike hal.symm)
      (fun hr => hal.columns_eq.trans (hroot (hal.isRoot_eq ▸ hr))) hactive

theorem exists_walk (hkeeps : Keeps f fetch) (htotal : Total f fetch) (h : Able f n) (steps : Nat)
    (hat : At f values i n) : ∃ e m, f.walk fetch steps i n = (.ok e, m) := by
  suffices hok : ∃ e, (f.walk fetch steps i n).1 = .ok e from
    hok.imp fun e he => ⟨_, Prod.ext he rfl⟩
  refine walk_rule (Q := fun r _ => ∃ e, r = .ok e) (I := fun _ j m => At f values j m ∧ m.Alike n)
    ?_ ?_ ?_ ?_ ?_ ?_ ?_ ?_ ⟨hat, .refl n⟩
  · exact fun _ _ _ => ⟨_, rfl⟩
  · exact fun _ _ _ _ _ => ⟨_, rfl⟩
  · rintro s j m k e k' ⟨hat, hal⟩ hk ht
    obtain ⟨o, k'', hok⟩ := exists_turn htotal (h.of_alike hal.symm) hat hk
    obtain ⟨⟩ := ht.symm.trans hok
  · exact fun _ _ _ _ _ _ _ _ => ⟨_, rfl⟩
  · exact fun _ _ _ _ _ _ _ _ => ⟨_, rfl⟩
  · rintro s j m k k' c ⟨hat, hal⟩ hk ht
    obtain ⟨hat', hal'⟩ := hat.batch hkeeps hk ht
    exact ⟨hat', hal'.trans hal⟩
  · exact fun _ _ _ _ _ _ _ => ⟨_, rfl⟩
  · rintro s j m k k' ⟨hat, hal⟩ hk ht
    obtain ⟨hat', hal'⟩ := hat.back hkeeps hk ht
    exact ⟨hat', hal'.trans hal⟩

theorem exists_fetchLeaf {b : BatchCursor} (h : Able f n) (hw : n.isRoot = true → n.columns = [])
    (ha : Active f values n) (hb : n.progress.cursor = some b) :
    ∃ o n', f.fetchLeaf n b = (.ok o, n') := by
  obtain ⟨past, batch, ahead, ho⟩ := ha.exists_open
  obtain ⟨k, m, hpull⟩ := exists_pull h ha hb
  refine fetchLeaf_rule (fun _ => ⟨_, _, rfl⟩) (fun e m' _ hp => ?_) (fun _ _ _ _ _ => ⟨_, _, rfl⟩)
    fun k' m' _ hp => ?_
  · obtain ⟨⟩ := hp.symm.trans hpull
  · obtain ⟨-, hal, -, -⟩ := open_of_pull ho hb hp
    refine ⟨.batch m'.progress.results, m', ?_⟩
    cases hroot : m'.isRoot with
    | false => rw [combine_leaf hroot]; rfl
    | true =>
      have hcolumns : m'.columns = [] := hal.columns_eq.trans (hw (hal.isRoot_eq ▸ hroot))
      simp only [h.projection, Combination.combine, hcolumns, ite_self, Projection.combine_nil]
      rfl

theorem exists_advance {b : BatchCursor} (h : Able f n) (ha : Active f values n)
    (hb : n.progress.cursor = some b) : ∃ o n', advance n b = (.ok o, n') := by
  obtain ⟨k, m, hpull⟩ := exists_pull h ha hb
  refine advance_rule (fun _ => ⟨_, _, rfl⟩) (fun e m' _ hp => ?_) fun _ _ _ _ => ⟨_, _, rfl⟩
  obtain ⟨⟩ := hp.symm.trans hpull

/-- **Fetching does not fail** where all keys are there. -/
theorem total_fetchWithin (f : Fetcher) (height : Nat) : Total f (f.fetchWithin height) := by
  induction height with
  | zero => exact fun n _ _ _ _ => ⟨_, _, rfl⟩
  | succ height ih =>
    intro n values h hw ha
    obtain ⟨past, batch, ahead, ho⟩ := ha.exists_open
    obtain ⟨b, hb, -⟩ := ho.cursor
    cases hl : n.isLeaf with
    | true =>
      rw [fetchWithin_leaf hl hb]
      exact exists_fetchLeaf h hw ha hb
    | false =>
      have hat := at_start h.formed ha hl
      have hkeeps := keeps_fetchWithin f height
      obtain ⟨e, m, hwalk⟩ := exists_walk hkeeps ih h f.steps hat
      have hwalked := walked_walk hkeeps f.steps hat
      rw [hwalk] at hwalked
      obtain ⟨hal, hend⟩ := hwalked e rfl
      have hm := h.of_alike hal.symm
      refine fetchWithin_rule hl hb (fun e' m' hw' => ?_) (fun _ _ => ⟨_, _, rfl⟩) (fun _ _ => ⟨_, _, rfl⟩)
        (fun m' hw' => ?_) fun m' hw' => ?_
      · obtain ⟨⟩ := hw'.symm.trans hwalk
      · cases hw'.symm.trans hwalk
        exact exists_advance hm hend.1 (hend.2.trans hb)
      · cases hw'.symm.trans hwalk
        obtain ⟨c, hc⟩ := hm.exists_combine (fun hr => hal.columns_eq.trans (hw (hal.isRoot_eq ▸ hr)))
          hend.1 hend.2
        exact ⟨.batch c, m, by rw [hc]; rfl⟩

end Fetcher

namespace Graph

open Node

variable {g : Graph}

/-- A graph of an idle root can be run where the documents have their keys. -/
theorem Sound.exists_prepareRoot (hs : g.Sound) (hi : g.root.Idle) (h : g.root.Supplied g.fetcher.registry) :
    ∃ g₁, g.prepareRoot = (.ok (), g₁) := by
  obtain ⟨opened, hopen⟩ := Fetcher.exists_openCursor hs.formed h hi none
  exact ⟨{ g with root := opened }, prepareRoot_eq_iff.mpr ⟨rfl, hopen⟩⟩

/-- **A drain is exhausted** where all keys are there. -/
theorem Sound.ending_drain (hs : g.Sound) (h : Fetcher.Able g.fetcher g.root) (hw : g.root.columns = [])
    (ha : Active g.fetcher none g.root) : g.drain.ending = .exhausted := by
  refine drain_rule (Q := fun g run => Fetcher.Able g.fetcher g.root → g.root.columns = [] →
    Active g.fetcher none g.root → run.ending = .exhausted) ?_ ?_ ?_ ?_ hs h hw ha
  · intro g e g₁ hs hf h hw ha
    obtain ⟨o, root, hok⟩ := Fetcher.total_fetchWithin g.fetcher g.root.height g.root none h (fun _ => hw) ha
    obtain ⟨⟩ := hok.symm.trans (fetch_eq_iff.mp hf).2
  · exact fun _ _ _ _ _ _ _ => rfl
  · intro g g₁ run hs hf ih h hw ha
    obtain ⟨-, hfet, hal, -, -, hactive⟩ := hs.fetch hf
    exact ih (hfet ▸ h.of_alike hal.symm) (hal.columns_eq.trans hw) hactive
  · intro g g₁ c run hs hf ih h hw ha
    obtain ⟨-, hfet, hal, -, -, hactive, -⟩ := hs.fetch hf
    exact ih (hfet ▸ h.of_alike hal.symm) (hal.columns_eq.trans hw) hactive

end Graph

end PathQuery
