import PathQuery.Proofs.Graph.Inherit
import PathQuery.Proofs.Graph.Listing
import PathQuery.Proofs.Graph.PrefixTree
import PathQuery.Proofs.Graph.Preserved
import PathQuery.Proofs.Value

/-!
# Proofs/Graph/Pushdown — a leaf that is prepared for some hosts gives what joins with them

Preparing a leaf asks its store for the documents that have in the related key one of the values of the
hosts' key.  The values pass through the keys of the hosts' collection, and the store has an equality of its
own.  Where all keys are texts and integers neither makes a difference (`mem_values_iff`,
`matching_restrictTo`), so what the leaf gives are the documents of its resource that satisfy its own
restriction and join with some host (`Graph.gives_joined`).
-/

namespace PathQuery

/-! ## What joins -/

/-- The documents that satisfy a restriction and have in the related key of an edge the value that some host
has in its own, in their order. -/
def joinedDocuments (restriction : Restriction) (edge : Navigation) (hosts : Collection)
    (docs : List Document) : List Document :=
  docs.filter fun doc => restriction.admits doc ∧
    ∃ host ∈ hosts.rows, host.value? edge.hostKey = doc.get? edge.relatedKey

/-- A leaf that is not prepared, with its edge, hosts for it, and the documents of its resource.  Hosts have
texts or integers in the host's key, documents in the related key and in the primary key of the leaf, where
no two of them have the same. -/
structure Node.Joinable (r : Registry) (edge : Navigation) (hosts : Collection) (docs : List Document)
    (n : Node) : Prop where
  leaf : n.isLeaf = true
  edge_eq : n.plan.edge = some edge
  unready : n.status = .unready
  valid : hosts.Valid
  host : ∀ host ∈ hosts.rows, ∃ v ∈ host.value? edge.hostKey, v.IsKey
  stored : r.documentsFor n.plan.request = .ok docs
  related : ∀ doc ∈ docs, ∃ v ∈ doc.get? edge.relatedKey, v.IsKey
  primary : ∀ field ∈ n.progress.results.primaryKey, (∀ doc ∈ docs, ∃ v ∈ doc.get? field, v.IsKey) ∧
    docs.Pairwise fun a b => a.get? field ≠ b.get? field

/-! ## Keys of rows and documents -/

variable {edge : Navigation} {hosts : Collection} {docs : List Document} {field : String}

/-- A row has the key of its value. -/
theorem Entity.keyOf_eq_ok {e : Entity} {v : Value} {key : IndexKey} (hv : e.value? field = some v)
    (hk : IndexKey.ofValue? v = some key) : e.keyOf field = .ok key := by
  simp only [keyOf, hv, hk]

theorem Entity.isKeyed_of_isKey {e : Entity} (h : ∃ v ∈ e.value? field, v.IsKey) : e.IsKeyed field := by
  obtain ⟨v, hv, hk⟩ := h
  obtain ⟨key, hkey, -⟩ := hk.exists_key
  exact ⟨key, keyOf_eq_ok hv hkey⟩

/-- Different texts and integers have different keys. -/
theorem Document.pairwise_key? (hkeys : ∀ doc ∈ docs, ∃ v ∈ doc.get? field, v.IsKey)
    (h : docs.Pairwise fun a b => a.get? field ≠ b.get? field) :
    docs.Pairwise fun a b => a.key? field ≠ b.key? field := by
  refine h.imp_of_mem fun {a b} ha hb hne he => hne ?_
  obtain ⟨v, hv, hvk⟩ := hkeys a ha
  obtain ⟨w, hw, hwk⟩ := hkeys b hb
  obtain ⟨key, hkey, rfl⟩ := hvk.exists_key
  obtain ⟨key', hkey', rfl⟩ := hwk.exists_key
  rw [Option.mem_def] at hv hw
  rw [key?, key?, hv, hw, Option.bind_some, Option.bind_some, hkey, hkey'] at he
  rw [hv, hw, Option.some.inj he]

/-! ## The values that are asked for -/

/-- **The values that hosts ask for** are those that they have in the host's key. -/
theorem Collection.Valid.mem_values_iff (h : hosts.Valid)
    (hkeys : ∀ host ∈ hosts.rows, ∃ v ∈ host.value? field, v.IsKey) {values : List Value}
    (hv : hosts.distinctValues field = .ok values) {v : Value} :
    v ∈ values ↔ ∃ host ∈ hosts.rows, host.value? field = some v := by
  rw [h.mem_distinctValues hv]
  constructor
  · rintro ⟨m, hm, key, hkey, rfl⟩
    have hrow : m.entity ∈ hosts.rows := List.mem_map_of_mem hm
    obtain ⟨w, hw, hwk⟩ := hkeys _ hrow
    obtain ⟨key', hkey', rfl⟩ := hwk.exists_key
    cases hkey.symm.trans (Entity.keyOf_eq_ok hw hkey')
    exact ⟨_, hrow, hw⟩
  · rintro ⟨host, hrow, hw⟩
    obtain ⟨m, hm, rfl⟩ := List.mem_map.mp hrow
    obtain ⟨w, hw', hwk⟩ := hkeys _ hrow
    cases hw.symm.trans hw'
    obtain ⟨key, hkey, hvalue⟩ := hwk.exists_key
    exact ⟨m, hm, key, Entity.keyOf_eq_ok hw hkey, hvalue.symm⟩

/-- **The store finds what joins**: the documents that satisfy a restriction and have one of the values. -/
theorem matching_restrictTo (restriction : Restriction) {values : List Value}
    (hvalues : ∀ v, v ∈ values ↔ ∃ host ∈ hosts.rows, host.value? edge.hostKey = some v)
    (hhosts : ∀ host ∈ hosts.rows, ∃ v ∈ host.value? edge.hostKey, v.IsKey)
    (hrelated : ∀ doc ∈ docs, ∃ v ∈ doc.get? edge.relatedKey, v.IsKey) :
    Cursor.matching (restriction.restrictTo edge.relatedKey values) docs =
      joinedDocuments restriction edge hosts docs := by
  refine List.filter_congr fun doc hd => ?_
  obtain ⟨v, hv, hk⟩ := hrelated doc hd
  rw [Option.mem_def] at hv
  rw [Restriction.restrictTo, Restriction.admits_push, Document.lookup, hv, Bool.eq_iff_iff, Bool.and_eq_true,
    decide_eq_true_iff]
  refine and_congr_right fun _ => ?_
  change values.any v.equals = true ↔ _
  rw [List.any_eq_true, ← hvalues]
  constructor
  · rintro ⟨w, hw, he⟩
    obtain ⟨host, hrow, hhost⟩ := (hvalues w).mp hw
    obtain ⟨w', hw', hwk⟩ := hhosts host hrow
    cases hhost.symm.trans hw'
    rwa [(hk.equals_iff hwk).mp he]
  · exact fun hm => ⟨v, hm, hk.equals_self⟩

/-! ## What a leaf gives -/

namespace Node

variable {f : Fetcher} {n : Node}

/-- **Preparing a leaf for some hosts** makes it list what joins with them. -/
theorem Joinable.exists_prepare (h : n.Joinable f.registry edge hosts docs) (hl : n.Laid)
    (hi : n.progress.results.IndexedFor n.plan.edge) (hr : n.isRoot = false) :
    ∃ n' values, f.prepare hosts n = (.ok (), n') ∧
      n'.Lists f values (joinedDocuments n.plan.request.restriction edge hosts docs) := by
  obtain ⟨values, hvalues⟩ : ∃ values, hosts.distinctValues edge.hostKey = .ok values :=
    Collection.exists_distinctValues fun m hm =>
      Entity.isKeyed_of_isKey (h.host m.entity (List.mem_map_of_mem hm))
  have hmatching : Cursor.matching (Fetcher.requestFor n (some values)).restriction docs =
      joinedDocuments n.plan.request.restriction edge hosts docs := by
    rw [Fetcher.requestFor_of_edge h.edge_eq]
    exact matching_restrictTo _ (fun _ => h.valid.mem_values_iff h.host hvalues) h.host h.related
  have hsub : (joinedDocuments n.plan.request.restriction edge hosts docs).Sublist docs := List.filter_sublist
  have hkeyed : ∀ doc ∈ joinedDocuments n.plan.request.restriction edge hosts docs, ∀ field,
      n.progress.results.Tracks field → (Entity.ofDocument doc).IsKeyed field := by
    intro doc hd field ht
    refine Entity.isKeyed_of_isKey ?_
    rw [Entity.value?_ofDocument]
    rcases ht with hp | hin
    · exact (h.primary field hp).1 doc (hsub.subset hd)
    · obtain ⟨e, he, rfl⟩ := hi field hin
      cases he.symm.trans h.edge_eq
      exact h.related doc (hsub.subset hd)
  have hapart : BatchCursor.KeysApart n.progress.results
      ((joinedDocuments n.plan.request.restriction edge hosts docs).map Entity.ofDocument) := fun field hp =>
    Document.pairwise_keyOf
      ((Document.pairwise_key? (h.primary field hp).1 (h.primary field hp).2).sublist hsub)
  rw [← hmatching] at hkeyed hapart ⊢
  obtain ⟨n', hopen, hlists⟩ := exists_openCursor_leaf (some values) hl h.unready (List.isEmpty_iff.mp h.leaf)
    (fun hroot => nomatch hr.symm.trans hroot) h.stored hkeyed hapart
  refine ⟨n', some values, ?_, hlists⟩
  rw [Fetcher.prepare, h.edge_eq]
  simp only [hvalues, hopen]

end Node

/-! ## Leaves of graphs -/

namespace Graph

open Node

variable {g g₁ : Graph} {n : Node}

/-- A node of a graph is laid out as it was built, whatever was called. -/
theorem Called.of_mem_all (hb : g.Built) (hr : g.Called g₁) (hn : n ∈ g₁.root.all) :
    n.Formed ∧ (n.isLeaf = true → n.progress.results.IndexedFor n.plan.edge) ∧
      (n.plan.edge ≠ none → n.isRoot = false) := by
  obtain ⟨hp, -⟩ := hr.preserved (hb.idle.sized _)
  obtain ⟨k, hk, hal⟩ := hp.alike.exists_all hn
  have hformed := hb.sound.formed.of_mem_all hk
  refine ⟨hformed.of_alike hal.symm, fun hl => ?_, fun he => ?_⟩
  · have hleaf : k.children = [] := List.isEmpty_iff.mp (hal.isLeaf_eq.symm.trans hl)
    have hindexed : k.progress.results.IndexedFor k.plan.edge := by
      cases hb with
      | ofRoot _ hq => exact indexedFor_of_ofQuery? hq hk hleaf
    rw [Collection.IndexedFor, (Collection.layout_eq_iff.mp hal.layout_eq).2.2, hal.plan_eq]
    exact hindexed
  · rw [hal.isRoot_eq]
    rcases eq_or_child_of_mem_all hk with rfl | ⟨m, hm, hkm⟩
    · exact absurd (hal.plan_eq ▸ hb.sound.edge) he
    · obtain ⟨edge, hj⟩ := (hb.sound.formed.of_mem_all hm).joint hkm
      exact hj.inner

/-- **Pushing a join down is exact**: a leaf that is prepared for some hosts gives, in the order of the store,
the documents of its resource that satisfy its own restriction and have in the related key the value of some
host's key, each once and in batches that are full but for the last; so each row joins with a host. -/
theorem gives_joined (hb : g.Built) (hr : g.Called g₁) (hn : n ∈ g₁.root.all)
    (h : n.Joinable g₁.fetcher.registry edge hosts docs) : ∃ n' run,
    g₁.fetcher.prepare hosts n = (.ok (), n') ∧ g₁.fetcher.Gives n' run ∧
      run.Deals g₁.fetcher.bound
        ((joinedDocuments n.plan.request.restriction edge hosts docs).map Entity.ofDocument) ∧
      ∀ row ∈ run.rows, ∃ host ∈ hosts.rows, ∃ key,
        host.keyOf edge.hostKey = .ok key ∧ row.keyOf edge.relatedKey = .ok key := by
  obtain ⟨hformed, hindexed, hinner⟩ := hr.of_mem_all hb hn
  obtain ⟨n', values, hprepare, hlists⟩ := h.exists_prepare hformed.laid (hindexed h.leaf)
    (hinner (h.edge_eq ▸ Option.some_ne_none edge))
  obtain ⟨run, hdeals, hgives⟩ := hlists.exists_gives
  refine ⟨n', run, hprepare, hgives, hdeals, fun row hrow => ?_⟩
  rw [hdeals.rows_eq] at hrow
  obtain ⟨doc, hd, rfl⟩ := List.mem_map.mp hrow
  obtain ⟨hd, hjoins⟩ := List.mem_filter.mp hd
  obtain ⟨-, host, hhost, hvalue⟩ := of_decide_eq_true hjoins
  obtain ⟨v, hv, hk⟩ := h.related doc hd
  obtain ⟨key, hkey, -⟩ := hk.exists_key
  exact ⟨host, hhost, key, Entity.keyOf_eq_ok (hvalue.trans hv) hkey,
    Entity.keyOf_eq_ok ((Entity.value?_ofDocument doc edge.relatedKey).trans hv) hkey⟩

/-- The lines of two orders, but for the first of them, in batches of two. -/
theorem gives_joined_lines : ∃ (g g₁ : Graph) (n n' : Node) (edge : Navigation) (hosts : Collection)
    (docs : List Document) (run : Run), g.Built ∧ g.Called g₁ ∧ n ∈ g₁.root.all ∧
      n.Joinable g₁.fetcher.registry edge hosts docs ∧ hosts.rows.length = 2 ∧ docs.length = 4 ∧
      (joinedDocuments n.plan.request.restriction edge hosts docs).map (·.get? "id") =
        [some (.int 12), some (.int 21), some (.int 22)] ∧
      g₁.fetcher.prepare hosts n = (.ok (), n') ∧ g₁.fetcher.Gives n' run ∧
      run.Deals 2 ((joinedDocuments n.plan.request.restriction edge hosts docs).map Entity.ofDocument) := by
  obtain ⟨root, after, hq, htest⟩ := Shop.exists_root (Shop.catalog Shop.lines) "Orders"
    [⟨"lines/id", .compare .ge, "12"⟩] [] (fun root =>
      let g := ofRoot (Shop.registry Shop.lines) .projection 2 root
      g.prepareRoot.1.toOption = some () && g.prepareRoot.2.root.children.any fun n =>
        let hosts := g.prepareRoot.2.root.progress.results
        n.isLeaf && n.plan.edge.any fun edge =>
          (g.fetcher.registry.documentsFor n.plan.request).toOption.any fun docs =>
            n.status = .unready ∧ (∀ host ∈ hosts.rows, ∃ v ∈ host.value? edge.hostKey, v.IsKey) ∧
              (∀ doc ∈ docs, ∃ v ∈ doc.get? edge.relatedKey, v.IsKey) ∧
              (∀ field ∈ n.progress.results.primaryKey, (∀ doc ∈ docs, ∃ v ∈ doc.get? field, v.IsKey) ∧
                docs.Pairwise fun a b => a.get? field ≠ b.get? field) ∧
              hosts.rows.length = 2 ∧ docs.length = 4 ∧
              (joinedDocuments n.plan.request.restriction edge hosts docs).map (·.get? "id") =
                [some (.int 12), some (.int 21), some (.int 22)]) (by decide +kernel)
  have hb : Built (ofRoot (Shop.registry Shop.lines) .projection 2 root) := .ofRoot (.ofConfig _ _) hq _ _ _
  obtain ⟨hok, hany⟩ := Bool.and_eq_true_iff.mp htest
  obtain ⟨n, hn, htest⟩ := List.any_eq_true.mp hany
  obtain ⟨hleaf, hedge⟩ := Bool.and_eq_true_iff.mp htest
  obtain ⟨edge, hedge, htest⟩ := (Option.any_eq_true _ _).mp hedge
  obtain ⟨docs, hdocs, htest⟩ := (Option.any_eq_true _ _).mp htest
  obtain ⟨hunready, hhost, hrelated, hprimary, hrows, hlength, hjoined⟩ := of_decide_eq_true htest
  obtain ⟨-, -, -, -, hactive⟩ := hb.sound.prepareRoot
    (Prod.ext (toOption_eq_some.mp (of_decide_eq_true hok)) rfl)
  obtain ⟨past, batch, ahead, ho⟩ := hactive.exists_open
  have hjoinable : n.Joinable (Shop.registry Shop.lines) edge _ docs :=
    ⟨hleaf, hedge, hunready, ho.valid, hhost, toOption_eq_some.mp hdocs, hrelated, hprimary⟩
  obtain ⟨n', run, hprepare, hgives, hdeals, -⟩ := gives_joined hb (.prepareRoot .refl)
    (mem_all_child hn (mem_all_self n)) hjoinable
  exact ⟨_, _, n, n', edge, _, docs, run, hb, .prepareRoot .refl, mem_all_child hn (mem_all_self n), hjoinable,
    hrows, hlength, hjoined, hprepare, hgives, hdeals⟩

end Graph

end PathQuery
