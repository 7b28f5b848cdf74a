import PathQuery.Proofs.Graph.Inherit
import PathQuery.Proofs.Graph.Projection
import PathQuery.Proofs.Graph.Run
import PathQuery.Proofs.Result.Safe

/-!
# Proofs/Graph/Protocol — no step is taken that the state does not allow

Whatever is called on a graph, and whichever calls fail on the way, its nodes stay in order: cursors read
sound sources, and the results that a node has kept are those of its children, with the edges to them and
the keys of these edges (`Node.Orderly`).  A fetch needs no more than that, so neither it nor any step inside
it is a breach (`protocol_of_called`).
-/

namespace PathQuery

/-! ## Pulling -/

/-- A pull moves on in its source and keeps the layout, also where it fails. -/
theorem BatchCursor.safe_pull {docs : List Document} {b : BatchCursor} (hg : b.cursor.Gives docs)
    (count moved : Nat) (c : Collection) :
    Safe (pull count moved b c).1 (fun _ => True) ∧ (∃ docs, (pull count moved b c).2.1.cursor.Gives docs) ∧
      (pull count moved b c).2.2.layout = c.layout := by
  induction count generalizing moved b c docs with
  | zero => exact ⟨True.intro, ⟨_, hg⟩, rfl⟩
  | succ count ih =>
    obtain ⟨cursor, hnext, -, hg'⟩ := hg.exists_next
    rw [pull, hnext]
    rcases docs with _ | ⟨doc, rest⟩
    · exact ⟨True.intro, ⟨_, hg'⟩, rfl⟩
    · dsimp only [List.head?_cons]
      refine (c.safe_add ⟨b.pulled, Entity.ofDocument doc⟩).elim (fun _ hf => ⟨hf, ⟨_, hg'⟩, rfl⟩)
        fun added hadd => ?_
      obtain ⟨hsafe, hgives, hlayout⟩ :=
        ih (b := { b with cursor, pulled := b.pulled + 1 }) hg' (moved + 1) added.2
      exact ⟨hsafe, hgives, hlayout.trans hadd⟩

theorem BatchCursor.safe_nextBatch {docs : List Document} {b b' : BatchCursor} {c c' : Collection}
    {e : Except Failure Nat} (hg : b.cursor.Gives docs) (h : b.nextBatch c = (e, b', c')) :
    Safe e (fun _ => True) ∧ (∃ docs, b'.cursor.Gives docs) ∧ c'.layout = c.layout := by
  have := safe_pull hg b.batchSize 0 c
  rwa [← nextBatch, h] at this

/-! ## Combining -/

section Combine

variable {results child : Collection} {edge : Navigation} {children : List Collection}

/-- Results of children that hosts can be joined with: they know their edge, and rows are found by its keys
on both sides. -/
def Joinable (results : Collection) (children : List Collection) : Prop :=
  ∀ child ∈ children, ∃ edge, child.navigation = .ok edge ∧ child.Tracks edge.relatedKey ∧
    results.Tracks edge.hostKey

namespace Expand

theorem safe_embedLast {combined : Collection} (h : combined.Tracks edge.hostKey) (related : Entity) :
    Safe (embedLast edge combined related) fun c => c.layout = combined.layout := by
  refine safe_bind (related.safe_keyOf _) fun key _ =>
    safe_bind (Collection.safe_slotsBy h key) fun slots _ => ?_
  induction slots generalizing combined with
  | nil => exact rfl
  | cons slot rest ih => exact ih ((Collection.tracks_congr rfl _).mp h)

theorem safe_embedChild (hn : child.navigation = .ok edge) (ht : child.Tracks edge.relatedKey)
    (combined : Collection) : Safe (embedChild combined child) fun c => c.layout = combined.layout := by
  rw [embedChild, hn]
  refine safe_foldlM (P := fun c : Collection => c.layout = combined.layout) rfl fun c hc slot _ => ?_
  rw [embedSlot]
  split
  · exact hc
  · exact safe_bind (Entity.safe_keyOf _ _) fun key _ =>
      safe_bind (Collection.safe_membersBy ht key) fun related _ => hc

/-- Expanding keeps the layout of the hosts. -/
theorem safe_combine (h : Joinable results children) :
    Safe (combine results children) fun c => c.layout = results.layout := by
  rw [combine]
  rcases hlast : children.getLast? with _ | last
  · exact rfl
  · obtain ⟨edge, hn, -, hhost⟩ := h last (List.mem_of_getLast? hlast)
    refine safe_bind_of_ok hn ?_
    refine safe_bind (P := fun c => c.layout = results.layout)
      ((Collection.safe_moveJoined hhost last results.emptyLike).imp fun c hc =>
        hc.trans (Collection.layout_emptyLike results)) fun joined hj => ?_
    refine safe_bind (P := fun c => c.layout = results.layout) (safe_foldlM hj fun c hc row _ =>
      (safe_embedLast ((Collection.tracks_congr hc _).mpr hhost) row).imp fun d hd => hd.trans hc)
      fun embedded he => safe_foldlM he fun c hc k hk => ?_
    obtain ⟨edge', hn', ht', -⟩ := h k (List.dropLast_subset _ (List.mem_reverse.mp hk))
    exact (safe_embedChild hn' ht' c).imp fun d hd => hd.trans hc

end Expand

namespace Projection

theorem safe_spread (ht : child.Tracks edge.relatedKey) (row : Entity) :
    Safe (spread edge child row) fun _ => True := by
  refine safe_bind (row.safe_keyOf _) fun key _ =>
    safe_bind (Collection.safe_membersBy ht key) fun related _ => ?_
  split <;> exact True.intro

theorem safe_addRows (c : Collection) (rows : List Entity) :
    Safe (addRows c rows) fun d => d.layout = c.layout :=
  safe_foldlM (P := fun d : Collection => d.layout = c.layout) rfl fun d hd _ _ =>
    safe_map (d.safe_add _) fun _ hadd => hadd.trans hd

theorem safe_addHost {pairs : List (Collection × Navigation)}
    (h : ∀ pair ∈ pairs, pair.1.Tracks pair.2.relatedKey) (c : Collection) (host : Entity) :
    Safe (addHost pairs c host) fun d => d.layout = c.layout := by
  refine safe_bind (P := fun _ => True) (safe_foldlM True.intro fun rows _ pair hp => ?_) fun made _ =>
    safe_addRows c made
  exact safe_map (safe_mapM (Q := fun _ => True) fun row _ => safe_spread (h pair hp) row) fun _ _ => True.intro

theorem safe_cut (origin : Origin) (wanted : List String) (c : Collection) :
    Safe (cut origin wanted c) fun d => wanted = [] → d.layout = c.layout := by
  rw [cut]
  split
  · exact fun _ => rfl
  · rename_i hsome
    exact (safe_addRows _ _).imp fun d _ hw => absurd (List.isEmpty_iff.mpr hw) hsome

/-- Projecting keeps the fields by which rows are found, unless the rows are cut down. -/
theorem safe_combine (origin : Origin) (wanted : List String) (h : Joinable results children) :
    Safe (combine origin wanted results children) fun c => wanted = [] →
      c.layout = results.layout ∨ c.layout = (layout origin results).layout := by
  rw [combine]
  rcases hlast : children.getLast? with _ | last
  · exact (safe_cut origin wanted results).imp fun d hd hw => .inl (hd hw)
  · obtain ⟨edge, hn, -, hhost⟩ := h last (List.mem_of_getLast? hlast)
    refine safe_bind_of_ok hn ?_
    refine safe_bind (Collection.safe_moveJoined hhost last (layout origin results)) fun seeded hs => ?_
    refine safe_bind (P := fun pairs : List (Collection × Navigation) =>
      ∀ pair ∈ pairs, pair.1.Tracks pair.2.relatedKey) (safe_mapM fun k hk => ?_) fun pairs hp => ?_
    · obtain ⟨edge', hn', ht', -⟩ := h k hk
      rw [hn']
      exact ht'
    · refine safe_bind (P := fun c => c.layout = (layout origin results).layout)
        (safe_foldlM ((Collection.layout_emptyLike seeded).trans hs) fun c hc host _ =>
          (safe_addHost hp c host).imp fun d hd => hd.trans hc) fun combined hc => ?_
      exact (safe_cut origin wanted combined).imp fun d hd hw => .inr ((hd hw).trans hc)

end Projection

end Combine

/-! ## Nodes in order -/

namespace Node

variable {n m : Node} {c d : Collection}

/-- Results that may be handed up from a node: they know the edge to it, and find their rows by its key. -/
structure Owns (n : Node) (c : Collection) : Prop where
  navigation : c.navigation = .ok n.edge
  tracks : c.Tracks n.edge.relatedKey

theorem Owns.congr (h : n.Owns c) (ha : m.Alike n) (hl : d.layout = c.layout) : m.Owns d := by
  refine ⟨?_, ?_⟩
  · rw [ha.edge_eq, Collection.navigation_congr hl, h.navigation]
  · rw [ha.edge_eq]
    exact (Collection.tracks_congr hl _).mpr h.tracks

/-- A node at the end of an edge, which finds its rows by the key there. -/
structure Inner (n : Node) : Prop where
  inner : n.isRoot = false
  edge_eq : n.plan.edge = some n.edge
  tracks : n.progress.results.Tracks n.edge.relatedKey

theorem Inner.of_alike (h : n.Inner) (ha : m.Alike n) : m.Inner where
  inner := ha.isRoot_eq.trans h.inner
  edge_eq := by rw [ha.plan_eq, ha.edge_eq, h.edge_eq]
  tracks := by
    rw [ha.edge_eq]
    exact (Collection.tracks_congr ha.layout_eq _).mpr h.tracks

/-- The rows of the node itself may be handed up. -/
theorem Inner.owns (h : n.Inner) (hl : n.Laid) : n.Owns n.progress.results :=
  ⟨hl.navigation h.edge_eq, h.tracks⟩

/-- The cursor of a node reads a sound source, and the results that it kept come from its children. -/
structure Sourced (n : Node) : Prop where
  cursor : ∀ b, n.progress.cursor = some b → ∃ docs, b.cursor.Gives docs
  results : ∀ c ∈ n.progress.childResults, ∃ child ∈ n.children, child.Owns c

/-- **A tree in order**: it is as it was built, and each of its nodes has kept what it may. -/
structure Orderly (n : Node) : Prop where
  formed : n.Formed
  hinged : n.Hinged
  sourced : ∀ m ∈ n.all, m.Sourced

theorem Orderly.sourced_self (h : n.Orderly) : n.Sourced := h.sourced n (mem_all_self n)

theorem Orderly.child (h : n.Orderly) {child : Node} (hc : child ∈ n.children) : child.Orderly :=
  ⟨h.formed.child hc, h.hinged.child hc, (forall_mem_all.mp h.sourced).2 child hc⟩

theorem Orderly.inner (h : n.Orderly) {child : Node} (hc : child ∈ n.children) : child.Inner := by
  obtain ⟨edge, hj⟩ := h.formed.joint hc
  exact ⟨hj.inner, hj.edge_child ▸ hj.edge_eq, (h.hinged.tracks h.formed hc).2.1⟩

/-- A node without cursors and kept results is in order. -/
theorem Idle.orderly (h : n.Idle) (hf : n.Formed) (hh : n.Hinged) : n.Orderly := by
  refine ⟨hf, hh, ?_⟩
  clear hf hh
  induction n using Node.induction with
  | node n ih =>
    refine forall_mem_all.mpr ⟨⟨?_, ?_⟩, fun child hc => ih child hc (h.child hc)⟩
    · rw [h.cursor]
      rintro _ ⟨⟩
    · rw [h.childResults]
      exact List.forall_mem_nil _

theorem Orderly.reset (h : n.Orderly) : n.reset.Orderly :=
  (idle_reset n).orderly (h.formed.of_alike (alike_reset n).symm) (h.hinged.of_alike (alike_reset n).symm)

/-- **A change of the progress** keeps the order, if what is new is in order. -/
theorem Orderly.update (h : n.Orderly) (ha : m.Alike n)
    (hcur : ∀ b, m.progress.cursor = some b → ∃ docs, b.cursor.Gives docs)
    (hres : ∀ c ∈ m.progress.childResults, c ∈ n.progress.childResults ∨ ∃ child ∈ n.children, child.Owns c)
    (hchildren : ∀ child ∈ m.children, child.Orderly) : m.Orderly := by
  refine ⟨h.formed.of_alike ha.symm, h.hinged.of_alike ha.symm,
    forall_mem_all.mpr ⟨⟨hcur, fun c hc => ?_⟩, fun child hc => (hchildren child hc).sourced⟩⟩
  obtain ⟨child, hm, ho⟩ := (hres c hc).elim (h.sourced_self.results c) id
  obtain ⟨child', hm', ha'⟩ := ha.symm.exists_mem hm
  exact ⟨child', hm', ho.congr ha'.symm rfl⟩

theorem Orderly.setChild (h : n.Orderly) {i : Nat} {child child' : Node} (hc : n.children[i]? = some child)
    (ha : child'.Alike child) (ho : child'.Orderly) : (n.setChild i child').Orderly :=
  h.update (alike_setChild hc ha) h.sourced_self.cursor (fun _ => .inl) fun _ hm =>
    (List.mem_or_eq_of_mem_set hm).elim h.child fun he => he ▸ ho

theorem Orderly.resetChildren (h : n.Orderly) : n.resetChildren.Orderly := by
  refine h.update (alike_resetChildren n) h.sourced_self.cursor (List.forall_mem_nil _) fun child hm => ?_
  rw [Node.resetChildren, resetOf_eq] at hm
  obtain ⟨old, hold, rfl⟩ := List.mem_map.mp hm
  exact (h.child hold).reset

/-- Combined results of a node in order may be handed up, if it has somewhere to hand them. -/
theorem Orderly.safe_combine (h : n.Orderly) (combination : Combination) {children : List Collection}
    (hk : ∀ c ∈ children, ∃ child ∈ n.children, child.Owns c) :
    Safe (combination.combine n n.progress.results children) fun c => n.Inner → n.Owns c := by
  have hj : Joinable n.progress.results children := fun c hc => by
    obtain ⟨child, hm, ho⟩ := hk c hc
    exact ⟨child.edge, ho.navigation, ho.tracks, (h.hinged.tracks h.formed hm).1⟩
  rcases combination with _ | _
  · exact (Expand.safe_combine hj).imp fun c hl hi => (hi.owns h.formed.laid).congr (.refl n) hl
  · refine (Projection.safe_combine n.plan.origin _ hj).imp fun c hl hi => ?_
    have howns := hi.owns h.formed.laid
    rcases hl (if_neg (Bool.eq_false_iff.mp hi.inner)) with hl | hl
    · exact howns.congr (.refl n) hl
    · obtain ⟨-, ho, -, ht⟩ := Projection.bare_layout n.plan.origin n.progress.results
      have hnamed := (h.hinged n (mem_all_self n) n.edge hi.edge_eq).2
      refine ⟨?_, (Collection.tracks_congr hl _).mpr ((ht _).mpr ⟨howns.tracks, hnamed⟩)⟩
      rw [Collection.navigation_congr hl, ← howns.navigation, Collection.navigation, Collection.navigation,
        ho, h.formed.laid.origin]

end Node

namespace Fetcher

open Node

variable {α : Type} {P : α → Node → Prop} {f : Fetcher} {fetch : Node → Except Failure Outcome × Node}
  {n m child child' : Node} {i : Nat} {gave : Option Collection} {b : BatchCursor}

/-! ## Steps that keep the order -/

/-- A step of a node keeps it in order, also where it fails, and it is not a breach. -/
structure Stays (n : Node) (P : α → Node → Prop) (r : Except Failure α × Node) : Prop where
  alike : r.2.Alike n
  orderly : r.2.Orderly
  safe : Safe r.1 fun a => P a r.2

theorem Stays.of_alike {r : Except Failure α × Node} (h : Stays m P r) (ha : m.Alike n) : Stays n P r :=
  ⟨h.alike.trans ha, h.orderly, h.safe⟩

/-- Opening a node without a cursor. -/
theorem stays_openCursor (f : Fetcher) (values : Option (List Value)) (h : n.Orderly)
    (hcur : n.progress.cursor = none) :
    Stays n (fun _ m => m.progress.cursor ≠ none) (f.openCursor values n) := by
  have hopened : ∀ (results : Collection) (cursor : Option BatchCursor),
      results.layout = n.progress.results.layout →
      (∀ b, cursor = some b → ∃ docs, b.cursor.Gives docs) →
      Alike { n with progress := ⟨results, cursor, []⟩ } n ∧
        Orderly { n with progress := ⟨results, cursor, []⟩ } := fun results cursor hl hb => by
    have ha : Alike { n with progress := ⟨results, cursor, []⟩ } n :=
      alike_of_progress (Collection.purge_congr hl)
    exact ⟨ha, h.update ha hb (List.forall_mem_nil _) fun _ => h.child⟩
  have hpurged := Collection.layout_purge n.progress.results
  refine openCursor_rule (fun hs => ?_) (fun e _ he => ?_) (fun b _ hb _ => ?_)
    (fun b e b' results _ hb _ hnext => ?_) fun b k b' results _ hb _ hnext => ?_
  · exact absurd (status_eq_unready.mpr hcur) hs
  · exact ⟨.refl n, h, (f.registry.safe_fetchBatches (requestFor n values) f.batchSize).of_error he⟩
  · obtain ⟨docs, -, -, hg⟩ := gives_of_fetchBatches hb
    obtain ⟨ha, ho⟩ := hopened _ (some b) hpurged fun _ hb => Option.some.inj hb ▸ ⟨_, hg⟩
    exact ⟨ha, ho, Option.some_ne_none b⟩
  · obtain ⟨docs, -, -, hg⟩ := gives_of_fetchBatches hb
    obtain ⟨hsafe, -, hl⟩ := BatchCursor.safe_nextBatch hg hnext
    obtain ⟨ha, ho⟩ := hopened results none (hl.trans hpurged) (by rintro _ ⟨⟩)
    exact ⟨ha, ho, hsafe⟩
  · obtain ⟨docs, -, -, hg⟩ := gives_of_fetchBatches hb
    obtain ⟨-, hgives, hl⟩ := BatchCursor.safe_nextBatch hg hnext
    obtain ⟨ha, ho⟩ := hopened results (some b') (hl.trans hpurged) fun _ hb => Option.some.inj hb ▸ hgives
    exact ⟨ha, ho, Option.some_ne_none b'⟩

theorem stays_pull {e : Except Failure Nat} (h : n.Orderly) (hb : ∃ docs, b.cursor.Gives docs)
    (hp : pull n b = (e, m)) : Stays n (fun _ _ => True) (e, m) := by
  obtain ⟨docs, hg⟩ := hb
  cases hp
  obtain ⟨hsafe, hgives, hl⟩ := BatchCursor.safe_nextBatch (c := n.progress.results.purge) hg rfl
  have ha : (pull n b).2.Alike n :=
    alike_of_progress (Collection.purge_congr (hl.trans (Collection.layout_purge _)))
  exact ⟨ha, h.update ha (fun _ hb => Option.some.inj hb ▸ hgives) (fun _ => .inl) fun _ => h.child, hsafe⟩

/-- A child may be asked for once those before it have given results. -/
theorem safe_valuesFor (h : n.Orderly) (hc : n.children[i]? = some child)
    (hi : i ≤ n.progress.childResults.length) : Safe (valuesFor n i child) fun _ => True := by
  obtain ⟨edge, hj⟩ := h.formed.joint (List.mem_of_getElem? hc)
  rw [valuesFor, hj.edge_eq]
  rcases i with _ | j
  · exact Collection.safe_distinctValues _ _
  · have hprevious : n.progress.childResults[j]? = some n.progress.childResults[j] := List.getElem?_eq_getElem hi
    obtain ⟨before, hm, ho⟩ := h.sourced_self.results _ (List.mem_of_getElem? hprevious)
    dsimp only
    rw [hprevious]
    exact safe_bind (Collection.safe_joining ho.navigation (h.hinged.tracks h.formed hm).1) fun joined _ =>
      Collection.safe_distinctValues _ _

/-- What a node gives may be handed up. -/
def Answers (o : Outcome) (n : Node) : Prop := ∀ c, o = .batch c → n.Inner → n.Owns c

/-- Where a step fails, what it would have given does not matter. -/
theorem Stays.failed {β : Type} {P' : β → Node → Prop} {e : Failure} (h : Stays n P (.error e, m)) :
    Stays n P' (.error e, m) := ⟨h.alike, h.orderly, h.safe⟩

/-- A step after which nothing is given. -/
theorem Stays.quiet {r : Except Failure α} {o : Outcome} (h : Stays n P (r, m)) (ho : ∀ c, o ≠ .batch c) :
    Stays n Answers (.ok o, m) := ⟨h.alike, h.orderly, fun c hc => absurd hc (ho c)⟩

/-- A step after which results of children are combined. -/
theorem Stays.combined {r : Except Failure α} {children : List Collection} (h : Stays n P (r, m))
    (combination : Combination) (hk : ∀ c ∈ children, ∃ child ∈ m.children, child.Owns c) :
    Stays n Answers ((combination.combine m m.progress.results children).map .batch, m) :=
  ⟨h.alike, h.orderly, safe_map (h.orderly.safe_combine combination hk) fun _ hc _ hd =>
    Outcome.batch.inj hd ▸ hc⟩

/-- A way of fetching that keeps nodes with cursors in order. -/
def Guarded (fetch : Node → Except Failure Outcome × Node) : Prop :=
  ∀ n : Node, n.Orderly → n.progress.cursor ≠ none → Stays n Answers (fetch n)

/-- **A turn** opens a child only without a cursor, and fetches from it only with one. -/
theorem stays_turn (hfetch : Guarded fetch) (h : n.Orderly) (hc : n.children[i]? = some child)
    (hi : i ≤ n.progress.childResults.length) : Stays child Answers (f.turn fetch n i child) := by
  have hchild := h.child (List.mem_of_getElem? hc)
  have hopened : ∀ {vals r}, child.joinedStatus = .unready → f.openCursor (some vals) child = r →
      Stays child (fun _ m => m.progress.cursor ≠ none) r := fun {vals _} hs hr =>
    hr ▸ stays_openCursor f (some vals) hchild (joinedStatus_eq_unready.mp hs)
  refine turn_rule (fun _ => ?_) (fun hs => ?_) (fun e _ he => ?_) (fun vals e m hs _ hopen => ?_)
    fun vals m hs _ hopen => ?_
  · exact ⟨.refl child, hchild, by rintro _ ⟨⟩⟩
  · exact hfetch child hchild (cursor_ne_none_of_ready hs)
  · exact ⟨.refl child, hchild, (safe_valuesFor h hc hi).of_error he⟩
  · exact (hopened hs hopen).failed
  · obtain ⟨ha, ho, hcur⟩ := hopened hs hopen
    exact (hfetch m ho hcur).of_alike ha

theorem orderly_after (h : n.Orderly) (hc : n.children[i]? = some child) (ha : child'.Alike child)
    (ho : child'.Orderly) (hg : ∀ c, gave = some c → child.Owns c) : (after n i child' gave).Orderly := by
  refine h.update (alike_after hc ha gave) h.sourced_self.cursor (fun c hm => ?_) fun k hm => ?_
  · rcases List.mem_append.mp hm with hm | hm
    · exact .inl (List.mem_of_mem_take hm)
    · exact .inr ⟨child, List.mem_of_getElem? hc, hg c (Option.mem_toList.mp hm)⟩
  · exact (List.mem_or_eq_of_mem_set hm).elim h.child fun he => he ▸ ho

/-- **A walk** asks each child once those before it have given results. -/
theorem stays_walk (hfetch : Guarded fetch) (h : n.Orderly) (steps : Nat)
    (hi : i ≤ n.progress.childResults.length) : Stays n (fun _ _ => True) (f.walk fetch steps i n) := by
  have hturn : ∀ {m k k' : Node} {j : Nat} {r : Except Failure Outcome}, m.Orderly →
      j ≤ m.progress.childResults.length → m.children[j]? = some k → f.turn fetch m j k = (r, k') →
      Stays k Answers (r, k') := fun ho hj hk ht => ht ▸ stays_turn hfetch ho hk hj
  refine walk_rule (I := fun _ j m => m.Orderly ∧ m.Alike n ∧ j ≤ m.progress.childResults.length)
    (Q := fun r m => Stays n (fun _ _ => True) (r, m)) ?_ ?_ ?_ ?_ ?_ ?_ ?_ ?_ ⟨h, .refl n, hi⟩
  · rintro j m ⟨ho, ha, -⟩
    exact ⟨ha, ho, True.intro⟩
  · rintro s j m ⟨ho, ha, -⟩ -
    exact ⟨ha, ho, True.intro⟩
  · rintro s j m k e k' ⟨ho, ha, hj⟩ hk ht
    obtain ⟨hkk, hko, hsafe⟩ := hturn ho hj hk ht
    exact ⟨(alike_setChild hk hkk).trans ha, ho.setChild hk hkk hko, hsafe⟩
  · rintro s j m k k' ⟨ho, ha, hj⟩ hk ht
    obtain ⟨hkk, hko, -⟩ := hturn ho hj hk ht
    exact ⟨(alike_setChild hk hkk).trans ha, ho.setChild hk hkk hko, True.intro⟩
  · rintro s j m k k' ⟨ho, ha, hj⟩ hk ht
    obtain ⟨hkk, hko, -⟩ := hturn ho hj hk ht
    exact ⟨(alike_after hk hkk none).trans ha, orderly_after ho hk hkk hko (by rintro _ ⟨⟩), True.intro⟩
  · -- the child is no root, so what it gives may be kept
    rintro s j m k k' c ⟨ho, ha, hj⟩ hk ht
    obtain ⟨hkk, hko, hanswers⟩ := hturn ho hj hk ht
    have howns : k'.Owns c := hanswers c rfl ((ho.inner (List.mem_of_getElem? hk)).of_alike hkk)
    exact ⟨orderly_after ho hk hkk hko fun _ hc => Option.some.inj hc ▸ howns.congr hkk.symm rfl,
      (alike_after hk hkk _).trans ha, Nat.le_of_eq (length_after hj k' (some c)).symm⟩
  · rintro s m k k' ⟨ho, ha, hj⟩ hk ht
    obtain ⟨hkk, hko, -⟩ := hturn ho hj hk ht
    have hreset := (alike_reset k').trans hkk
    exact ⟨(alike_after hk hreset none).trans ha,
      orderly_after ho hk hreset hko.reset (by rintro _ ⟨⟩), True.intro⟩
  · rintro s j m k k' ⟨ho, ha, hj⟩ hk ht
    obtain ⟨hkk, hko, -⟩ := hturn ho hj hk ht
    have hreset := (alike_reset k').trans hkk
    exact ⟨orderly_after ho hk hreset hko.reset (by rintro _ ⟨⟩), (alike_after hk hreset none).trans ha,
      (Nat.le_succ j).trans (Nat.le_of_eq (length_after hj k'.reset none).symm)⟩

theorem stays_fetchLeaf (f : Fetcher) (h : n.Orderly) (hb : ∃ docs, b.cursor.Gives docs) :
    Stays n Answers (f.fetchLeaf n b) := by
  refine fetchLeaf_rule (fun _ => ?_) (fun e m _ hp => ?_) (fun k m _ hp _ => ?_) fun k m _ hp => ?_
  · exact ⟨.refl n, h, by rintro _ ⟨⟩⟩
  · exact (stays_pull h hb hp).failed
  · exact (stays_pull h hb hp).quiet (by rintro _ ⟨⟩)
  · exact (stays_pull h hb hp).combined f.combination (List.forall_mem_nil _)

theorem stays_advance (h : n.Orderly) (hb : ∃ docs, b.cursor.Gives docs) :
    Stays n Answers (advance n b) := by
  refine advance_rule (fun _ => ?_) (fun e m _ hp => ?_) fun k m _ hp => ?_
  · exact ⟨alike_reset n, h.reset, by rintro _ ⟨⟩⟩
  · exact (stays_pull h hb hp).failed
  · obtain ⟨ha, ho, -⟩ := stays_pull h hb hp
    exact ⟨(alike_resetChildren m).trans ha, ho.resetChildren, by rintro _ ⟨⟩⟩

/-- **A fetch from a node with a cursor** keeps the tree in order and is not a breach. -/
theorem guarded_fetchWithin (f : Fetcher) (height : Nat) : Guarded (f.fetchWithin height) := by
  induction height with
  | zero => exact fun n h _ => ⟨.refl n, h, by rintro _ ⟨⟩⟩
  | succ height ih =>
    intro n h hcur
    obtain ⟨b, hb⟩ := Option.ne_none_iff_exists'.mp hcur
    have hgives := h.sourced_self.cursor b hb
    rcases hl : n.isLeaf with _ | _
    · have hwalked : ∀ {e m}, f.walk (f.fetchWithin height) f.steps (start n) n = (e, m) →
          Stays n (fun _ _ => True) (e, m) := fun hw =>
        hw ▸ stays_walk ih h f.steps (Nat.min_le_left _ _)
      refine fetchWithin_rule hl hb (fun e m hw => ?_) (fun m hw => ?_) (fun m hw => ?_) (fun m hw => ?_)
        fun m hw => ?_
      · exact (hwalked hw).failed
      · exact (hwalked hw).quiet (by rintro _ ⟨⟩)
      · exact (hwalked hw).quiet (by rintro _ ⟨⟩)
      · obtain ⟨ha, ho, -⟩ := hwalked hw
        exact (stays_advance ho hgives).of_alike ha
      · exact (hwalked hw).combined f.combination (hwalked hw).orderly.sourced_self.results
    · rw [fetchWithin_leaf hl hb]
      exact stays_fetchLeaf f h hgives

end Fetcher

/-! ## Calls on a graph -/

namespace Graph

variable {g g₁ : Graph}

/-- A root with a cursor is not prepared again. -/
theorem prepareRoot_of_ne_none (hcur : g.root.progress.cursor ≠ none) :
    g.prepareRoot = (.error (.state (.alreadyPrepared g.root.name)), g) :=
  prepareRoot_eq_iff.mpr ⟨rfl, Fetcher.openCursor_of_ne_none _ _ hcur⟩

/-- Nothing is fetched from a root without a cursor. -/
theorem fetch_of_eq_none (hcur : g.root.progress.cursor = none) :
    g.fetch = (.error (.state (.notPrepared g.root.name)), g) :=
  fetch_eq_iff.mpr ⟨rfl, Fetcher.fetch_of_eq_none _ hcur⟩

/-- **Calls keep the tree in order**, also those that fail. -/
theorem Called.orderly (h : Called g g₁) (hg : g.root.Orderly) : g₁.root.Orderly := by
  induction h with
  | refl => exact hg
  | @prepareRoot g₁ _ ih =>
    by_cases hcur : g₁.root.progress.cursor = none
    · exact (Fetcher.stays_openCursor g₁.fetcher none ih hcur).orderly
    · rwa [prepareRoot_of_ne_none hcur]
  | @fetch g₁ _ ih =>
    by_cases hcur : g₁.root.progress.cursor = none
    · rwa [fetch_of_eq_none hcur]
    · exact (Fetcher.guarded_fetchWithin g₁.fetcher _ _ ih hcur).orderly
  | reset _ ih => exact ih.reset

/-- **The protocol of calls**: a call is refused where the cursor of the root forbids it, and it is not a
breach, at the root or below, where the cursor allows it. -/
structure Protocol (g : Graph) : Prop where
  prepareRoot : g.root.progress.cursor = none → ∀ e, g.prepareRoot.1 = .error e → e.isBreach = false
  prepared : g.root.progress.cursor ≠ none →
    g.prepareRoot = (.error (.state (.alreadyPrepared g.root.name)), g)
  fetch : g.root.progress.cursor ≠ none → ∀ e, g.fetch.1 = .error e → e.isBreach = false
  unprepared : g.root.progress.cursor = none →
    g.fetch = (.error (.state (.notPrepared g.root.name)), g)

theorem protocol_of_orderly (h : g.root.Orderly) : g.Protocol where
  prepareRoot hcur _ he := (Fetcher.stays_openCursor g.fetcher none h hcur).safe.of_error he
  prepared := prepareRoot_of_ne_none
  fetch hcur _ he := (Fetcher.guarded_fetchWithin g.fetcher _ _ h hcur).safe.of_error he
  unprepared := fetch_of_eq_none

/-- **No step is taken that the state does not allow**, whatever is called on a graph that was built from
metadata with names for its keys, and whichever calls failed. -/
theorem protocol_of_called {catalog after : Catalog} (hc : catalog.Reached) (hn : catalog.NamesKeys)
    {resource : String} {predicates : List Filter.Predicate} {selected : List String} {root : Node}
    (hq : Node.ofQuery? catalog resource predicates selected = (.ok root, after)) (registry : Registry)
    (combination : Combination) (batchSize : Nat)
    (h : Called (ofRoot registry combination batchSize root) g) : g.Protocol :=
  protocol_of_orderly (h.orderly ((Node.idle_of_ofQuery? hq).orderly
    (Node.rooted_of_ofQuery? hc hq).fresh.formed (Node.hinged_of_ofQuery? hn hq)))

/-- Two orders of one product, of which the second lacks its buyer. -/
def Shop.torn : Store :=
  ⟨.memory, store.resources.set "Orders"
    [[("id", .int 1), ("buyer", .int 1), ("item", .int 5)], [("id", .int 2), ("item", .int 5)]]⟩

/-- The second fetch of these orders one by one fails on the order without a buyer, and fetching may go on. -/
theorem protocol_of_called_torn : ∃ (root : Node) (after : Catalog) (e : Failure),
    Node.ofQuery? (Shop.catalog Shop.torn) "Orders" Shop.predicates [] = (.ok root, after) ∧
    (ofRoot (Shop.registry Shop.torn) .projection 1 root).prepareRoot.2.fetch.2.fetch.1 = .error e ∧
    (ofRoot (Shop.registry Shop.torn) .projection 1 root).prepareRoot.2.fetch.2.fetch.2.Protocol := by
  obtain ⟨root, after, hq, htest⟩ := Shop.exists_root (Shop.catalog Shop.torn) "Orders" Shop.predicates []
    (fun root => !(ofRoot (Shop.registry Shop.torn) .projection 1 root).prepareRoot.2.fetch.2.fetch.1.isOk)
    (by decide +kernel)
  have hprotocol := protocol_of_called (.ofConfig _ _) (Catalog.namesKeys_ofConfig (by decide +kernel)) hq
    (Shop.registry Shop.torn) .projection 1 (.fetch (.fetch (.prepareRoot .refl)))
  rcases hf : (ofRoot (Shop.registry Shop.torn) .projection 1 root).prepareRoot.2.fetch.2.fetch.1 with e | o
  · exact ⟨root, after, e, hq, hf, hprotocol⟩
  · rw [hf] at htest
    obtain ⟨⟩ := htest

end Graph

end PathQuery
