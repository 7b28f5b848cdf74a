import PathQuery.Proofs.Graph.Provenance
import PathQuery.Proofs.Graph.Supply

/-!
# Proofs/Graph/Narrowing — when narrowing gives every row something at the end of every edge

A child after the first is asked for the values of those hosts that join with the child before it, so each
row that it gives was asked for by such a host (`Full.exists_asks`).  A combination goes by the keys alone,
and a host with the same key need not be the one that asked.  Where they must be one, because later edges
start at the primary key of the hosts or because a batch is one host, a host that joins with a child joins
with the child before it (`Full.handed`), from the last child down to the first, and each row has something
at the end of every edge (`isJoined_of_primaryKeys`, `isJoined_of_batchSize`).
-/

namespace PathQuery

/-- Whether a host asks for a document: the store takes the document's value for that of the host's key. -/
def Navigation.Asks (edge : Navigation) (host : Entity) (doc : Document) : Prop :=
  ∃ key v, host.keyOf edge.hostKey = .ok key ∧ doc.lookup edge.relatedKey = some v ∧
    v.equals key.toValue = true

/-- The documents that a request for some values admits have one of them. -/
theorem Restriction.exists_equals_of_restrictTo {r : Restriction} {field : String} {values : List Value}
    {doc : Document} (h : (r.restrictTo field values).admits doc = true) :
    ∃ v, doc.lookup field = some v ∧ ∃ w ∈ values, v.equals w = true := by
  rw [restrictTo, admits_push, Bool.and_eq_true] at h
  obtain ⟨-, h⟩ := h
  rcases hv : doc.lookup field with _ | v
  · rw [hv] at h
    obtain ⟨⟩ := h
  · rw [hv] at h
    exact ⟨v, rfl, List.any_eq_true.mp h⟩

namespace Node

variable {r : Registry} {f : Fetcher} {values : Option (List Value)} {n m child next : Node} {i : Nat}

/-! ## Hosts that join with all children -/

/-- Whether a host joins with some row of a child. -/
def Finds (child : Node) (host : Entity) : Prop :=
  ∃ row ∈ child.branch.rows, child.edge.joins host row = true

/-- Hosts that join with a child join with the child before it. -/
def Handed (n : Node) : Prop :=
  n.children.IsChain fun child next => ∀ host ∈ n.progress.results.rows, next.Finds host → child.Finds host

/-- **A node takes hosts that join with all its children**, if they are handed on from child to child. -/
theorem Handed.finds (h : n.Handed) {host : Entity} (hhost : host ∈ n.branch.rows)
    (hc : child ∈ n.children) : child.Finds host := by
  have : IsTrans Node fun child next =>
      ∀ host ∈ n.progress.results.rows, next.Finds host → child.Finds host :=
    ⟨fun _ _ _ hab hbc host hm hf => hab host hm (hbc host hm hf)⟩
  have hpair := List.isChain_iff_pairwise.mp h
  rcases n.children.eq_nil_or_concat' with hnil | ⟨init, last, hlast⟩
  · rw [hnil] at hc
    obtain ⟨⟩ := hc
  · have hmem := mem_of_mem_rows_branch hhost
    rw [rows_branch, hlast, List.map_append, List.map_singleton, List.getLast?_concat] at hhost
    obtain ⟨m, hm, rfl⟩ := List.mem_map.mp hhost
    obtain ⟨-, row, hrow, hj⟩ := Collection.mem_taken.mp hm
    have hfinds : last.Finds m.entity := ⟨row, hrow, edge_branch last ▸ hj⟩
    rw [hlast] at hc hpair
    rcases List.mem_append.mp hc with hc | hc
    · exact (List.pairwise_append.mp hpair).2.2 child hc last (.head _) m.entity hmem hfinds
    · exact List.mem_singleton.mp hc ▸ hfinds

/-- A host that joins with children whose rows agree agrees with them. -/
theorem agrees_of_finds {host : Entity} (hf : ∀ child ∈ n.children, child.Finds host)
    (hr : ∀ child ∈ n.children, ∀ row ∈ child.branch.rows, child.agrees row = true) :
    n.agrees host = true := by
  rw [agrees_eq, List.all_eq_true]
  intro child hc
  obtain ⟨row, hrow, hj⟩ := hf child hc
  have hfound : row ∈ child.branch.rows.filter (child.edge.joins host) := List.mem_filter.mpr ⟨hrow, hj⟩
  have hgood : ∀ x ∈ child.branch.rows.filter (child.edge.joins host), child.agrees x = true :=
    fun x hx => hr child hc x (List.mem_filter.mp hx).1
  generalize child.branch.rows.filter (child.edge.joins host) = found at hfound hgood
  obtain _ | ⟨first, rest⟩ := found
  · obtain ⟨⟩ := hfound
  · cases child.edge.isScalar with
    | true => exact hgood first (.head _)
    | false => exact List.all_eq_true.mpr hgood

/-- **What a node takes agrees with all its children**, if this is so of every node below. -/
theorem agrees_of_handed (h : ∀ m ∈ n.all, m.Handed) : ∀ host ∈ n.branch.rows, n.agrees host = true := by
  induction n using Node.induction with
  | node n ih =>
    obtain ⟨hown, hbelow⟩ := forall_mem_all.mp h
    exact fun host hhost => agrees_of_finds (fun child hc => hown.finds hhost hc) fun child hc =>
      ih child hc (hbelow child hc)

/-- One child has none before it. -/
theorem handed_of_length_le (h : n.children.length ≤ 1) : n.Handed := by
  rw [Handed]
  match n.children, h with
  | [], _ => exact .nil
  | [_], _ => exact .singleton _

/-! ## Nodes with results for all their children -/

/-- A node that is fetched from and holds results for all its children. -/
structure Full (f : Fetcher) (n : Node) : Prop where
  formed : n.Formed
  active : ∃ values, Active f values n
  length_eq : n.progress.childResults.length = n.children.length

/-- The children of a full node are full, and what they gave is kept. -/
theorem Full.exists_gave (h : n.Full f) (hc : n.children[i]? = some child) :
    child.Full f ∧ ∃ c, n.progress.childResults[i]? = some c ∧ Gave f child c := by
  obtain ⟨values, ha⟩ := h.active
  obtain ⟨c, hres⟩ := exists_childResult h.length_eq hc
  obtain ⟨vals, hactive, hgave⟩ := ha.exists_gave hc hres
  exact ⟨⟨h.formed.child (List.mem_of_getElem? hc), ⟨vals, hactive⟩, hgave.1⟩, c, hres, hgave⟩

/-- All nodes below a full node are full. -/
theorem Full.of_mem_all (h : n.Full f) : ∀ m ∈ n.all, m.Full f := by
  induction n using Node.induction with
  | node n ih =>
    refine forall_mem_all.mpr ⟨h, fun child hc => ?_⟩
    obtain ⟨i, hi⟩ := List.mem_iff_getElem?.mp hc
    exact ih child hc (h.exists_gave hi).1

/-! ## What a child was asked for -/

/-- What a node was opened for are documents with one of the values that were asked for. -/
theorem Open.exists_equals {past batch ahead : List Document} {vals : List Value} {edge : Navigation}
    (h : n.Open f (some vals) past batch ahead) (he : n.plan.edge = some edge) {row : Entity}
    (hrow : row ∈ n.progress.results.rows) : ∃ doc, row = Entity.ofDocument doc ∧
      Stored f.registry n.plan.request doc ∧
      ∃ v, doc.lookup edge.relatedKey = some v ∧ ∃ w ∈ vals, v.equals w = true := by
  obtain ⟨doc, docs, rfl, -, hdocs, hdoc, hadmits⟩ := h.exists_document hrow
  refine ⟨doc, rfl, ⟨docs, hdocs, hdoc, admits_of_requestFor hadmits⟩, ?_⟩
  rw [Fetcher.requestFor_of_edge he] at hadmits
  exact Restriction.exists_equals_of_restrictTo hadmits

/-- Hosts that join with what a child gave join with a row that the child has taken. -/
theorem Full.finds_of_joins (h : n.Full f) (he : f.combination = .expand)
    (hc : n.children[i]? = some child) {c : Collection} (hres : n.progress.childResults[i]? = some c) :
    c.navigation = .ok child.edge ∧
      ∀ host, (∃ row ∈ c.rows, child.edge.joins host row = true) → child.Finds host := by
  have hmem := List.mem_of_getElem? hc
  obtain ⟨edge, hj⟩ := h.formed.joint hmem
  obtain ⟨hfull, _, hres', hgave⟩ := h.exists_gave hc
  cases hres.symm.trans hres'
  obtain ⟨vals, hactive⟩ := hfull.active
  obtain ⟨shown, hvalid, hl, hrows, rfl⟩ := hactive.shaped hfull.formed he hgave
  have hshapes := shapes_branch hj hfull.formed hvalid hl hrows
  refine ⟨edge_branch child ▸ hshapes.navigation, fun host ⟨row, hrow, hjoin⟩ => ?_⟩
  rw [Collection.rows_reshape, hrows] at hrow
  obtain ⟨origin, horigin, rfl⟩ := List.mem_map.mp hrow
  -- what is embedded in a row is no key
  obtain ⟨key, hhost, hrelated⟩ := Navigation.joins_iff.mp hjoin
  exact ⟨origin, horigin, Navigation.joins_iff.mpr ⟨key, hhost, hshapes.keeps _ _ _ hrelated⟩⟩

/-- **Each row of a child was asked for** by a host that joins with the child before it. -/
theorem Full.exists_asks (h : n.Full f) (he : f.combination = .expand) (hc : n.children[i]? = some child)
    (hn : n.children[i + 1]? = some next) {row : Entity} (hrow : row ∈ next.branch.rows) :
    ∃ m ∈ n.progress.results.members, child.Finds m.entity ∧ ∃ doc, row = Entity.ofDocument doc ∧
      Stored f.registry next.plan.request doc ∧ next.edge.Asks m.entity doc := by
  obtain ⟨values, ha⟩ := h.active
  obtain ⟨past, batch, ahead, ho⟩ := ha.exists_open
  obtain ⟨edge, hj⟩ := h.formed.joint (List.mem_of_getElem? hn)
  obtain ⟨-, d, hd, -⟩ := h.exists_gave hn
  obtain ⟨-, vals, hvals, hactive⟩ := ha.exists_vals hn (ha.staged.gave _ _ _ hn hd).1
  obtain ⟨_, _, _, hopen⟩ := hactive.exists_open
  obtain ⟨doc, rfl, hstored, v, hv, w, hw, hequals⟩ :=
    hopen.exists_equals hj.edge_eq (mem_of_mem_rows_branch hrow)
  obtain ⟨-, c, hres, -⟩ := h.exists_gave hc
  obtain ⟨hnav, hfinds⟩ := h.finds_of_joins he hc hres
  obtain ⟨m, hm, hjoins, key, hkey, rfl⟩ := (ho.mem_valuesFor_succ hj.edge_eq hres hnav hvals).mp hw
  exact ⟨m, hm, hfinds _ hjoins, doc, rfl, hstored, key, v, hj.edge_child ▸ hkey, hj.edge_child ▸ hv, hequals⟩

/-- **Hosts are handed on** where none but the host that asked for a row joins with it. -/
theorem Full.handed (h : n.Full f) (he : f.combination = .expand)
    (hone : ∀ next ∈ n.children.tail, ∀ doc, Stored f.registry next.plan.request doc →
      ∀ m ∈ n.progress.results.members, ∀ k ∈ n.progress.results.members, next.edge.Asks m.entity doc →
        next.edge.joins k.entity (Entity.ofDocument doc) = true → m = k) : n.Handed := by
  refine List.isChain_iff_getElem.mpr fun i hi host hhost ⟨row, hrow, hj⟩ => ?_
  have hc := List.getElem?_eq_getElem (Nat.lt_of_succ_lt hi)
  have hn := List.getElem?_eq_getElem hi
  obtain ⟨k, hk, rfl⟩ := List.mem_map.mp hhost
  obtain ⟨m, hm, hfinds, doc, rfl, hstored, hasks⟩ := h.exists_asks he hc hn hrow
  have htail : n.children[i + 1] ∈ n.children.tail :=
    List.mem_of_getElem? (List.getElem?_tail.trans hn)
  exact hone _ htail doc hstored m hm k hk hasks hj ▸ hfinds

/-! ## Keys that tell the hosts apart -/

/-- Every child after the first is reached by the primary key of its hosts, as is the end of a collection
edge. -/
def KeyedAfterFirst (n : Node) : Prop :=
  ∀ m ∈ n.all, ∀ child ∈ m.children.tail, m.progress.results.primaryKey = some child.edge.hostKey

instance (n : Node) : Decidable n.KeyedAfterFirst :=
  inferInstanceAs (Decidable (∀ m ∈ n.all, ∀ child ∈ m.children.tail,
    m.progress.results.primaryKey = some child.edge.hostKey))

theorem KeyedAfterFirst.of_alike (h : n.KeyedAfterFirst) (ha : n.Alike m) : m.KeyedAfterFirst := by
  intro k hk child hc
  obtain ⟨k', hk', hak⟩ := ha.symm.exists_all hk
  obtain ⟨i, hi⟩ := List.mem_iff_getElem?.mp hc
  rw [List.getElem?_tail] at hi
  obtain ⟨child', hi', hac⟩ := hak.exists_child hi
  rw [← List.getElem?_tail] at hi'
  rw [(Collection.layout_eq_iff.mp hak.layout_eq).2.1, hac.edge_eq]
  exact h k' hk' child' (List.mem_of_getElem? hi')

/-- **Where all keys are texts and integers** a host asks for documents that it joins with. -/
theorem Supplied.joins_of_asks (hs : n.Supplied r) (hh : n.Hinged) (hf : n.Formed) (hc : child ∈ n.children)
    {host doc : Document} (hhost : Stored r n.plan.request host) (hdoc : Stored r child.plan.request doc)
    (h : child.edge.Asks (Entity.ofDocument host) doc) :
    child.edge.joins (Entity.ofDocument host) (Entity.ofDocument doc) = true := by
  obtain ⟨hostTracked, relatedTracked, -⟩ := hh.tracks hf hc
  obtain ⟨docs, hdocs, hmem, -⟩ := hhost
  obtain ⟨docs', hdocs', hmem', -⟩ := hdoc
  obtain ⟨v, hv, hvk⟩ := hs.exists_isKey hdocs hmem hostTracked
  obtain ⟨w, hw, hwk⟩ := (hs.child hc).exists_isKey hdocs' hmem' relatedTracked
  obtain ⟨key, w', hkey, hlookup, hequals⟩ := h
  rw [Document.lookup, hw] at hlookup
  obtain rfl := Option.some.inj hlookup
  rw [Document.keyOf_ofDocument, Document.key?, hv] at hkey
  obtain ⟨key', hkey', hvalue⟩ := hvk.exists_key
  obtain rfl := Option.some.inj (hkey.symm.trans hkey')
  rw [hvalue, hwk.equals_iff hvk] at hequals
  refine Navigation.links_iff.mp ⟨key, ?_, ?_⟩
  · rw [Document.key?, hv, Option.bind_some, hkey']
  · rw [Document.key?, hw, hequals, Option.bind_some, hkey']

/-- Hosts are handed on to children that are reached by their primary key. -/
theorem Full.handed_of_primaryKeys (h : n.Full f) (he : f.combination = .expand) (hs : n.Supplied f.registry)
    (hh : n.Hinged) (hk : n.KeyedAfterFirst) : n.Handed := by
  obtain ⟨values, ha⟩ := h.active
  obtain ⟨past, batch, ahead, ho⟩ := ha.exists_open
  refine h.handed he fun next hnext doc hdoc m hm other ho' hasks hj => ?_
  obtain ⟨host, hhost, hstored⟩ := ho.exists_stored (List.mem_map_of_mem hm)
  have hjoins := hs.joins_of_asks hh h.formed (List.mem_of_mem_tail hnext) hstored hdoc (hhost ▸ hasks)
  -- both hosts join with the row, so they have one primary key
  obtain ⟨key, hkey, hrelated⟩ := Navigation.joins_iff.mp hjoins
  obtain ⟨key', hother, hrelated'⟩ := Navigation.joins_iff.mp hj
  obtain rfl := Except.ok.inj (hrelated.symm.trans hrelated')
  exact ho.valid.eq_of_key hm ho' (hk n (mem_all_self n) next hnext) (hhost ▸ hkey) hother

/-- The rows of a node are no more than a batch. -/
theorem Open.length_members_le {past batch ahead : List Document} (h : n.Open f values past batch ahead) :
    n.progress.results.members.length ≤ max f.batchSize 1 := by
  obtain ⟨got, hsub, hrows, -⟩ := h.rows
  have hlen := congrArg List.length hrows
  rw [Collection.rows, List.length_map, List.length_map] at hlen
  exact hlen ▸ hsub.length_le.trans h.small

/-- One host is handed on. -/
theorem Full.handed_of_batchSize (h : n.Full f) (he : f.combination = .expand) (hsize : f.batchSize ≤ 1) :
    n.Handed := by
  obtain ⟨values, ha⟩ := h.active
  obtain ⟨past, batch, ahead, ho⟩ := ha.exists_open
  have hle := ho.length_members_le
  rw [Nat.max_eq_right hsize] at hle
  refine h.handed he fun _ _ _ _ m hm k hk _ _ => ?_
  obtain ⟨i, hi, rfl⟩ := List.mem_iff_getElem.mp hm
  obtain ⟨j, hj, rfl⟩ := List.mem_iff_getElem.mp hk
  obtain rfl : i = j := by omega
  rfl

end Node

namespace Graph

open Node

variable {g g₁ g₂ : Graph} {c : Collection}

/-! ## Batches -/

/-- After a batch every node is full. -/
theorem full_of_batch (hb : g.Built) (hr : g.Reached g₁) (hf : g₁.fetch = (.ok (.batch c), g₂)) :
    g.root.Alike g₂.root ∧ ∀ m ∈ g₂.root.all, m.Full g.fetcher := by
  obtain ⟨hs, hfet, hal⟩ := hr.sound hb.sound
  obtain ⟨-, hfet', hal', -, -, hactive, hgave⟩ := hs.fetch hf
  rw [hfet'.trans hfet] at hactive
  have hfull : g₂.root.Full g.fetcher := ⟨(hs.after_fetch hf).formed, ⟨none, hactive⟩, hgave.1⟩
  exact ⟨(hal'.trans hal).symm, hfull.of_mem_all⟩

/-- **Rows whose hosts are handed on** have something at the end of every edge. -/
theorem isJoined_of_handed (hb : g.Built) (hr : g.Reached g₁) (he : g.fetcher.combination = .expand)
    (hf : g₁.fetch = (.ok (.batch c), g₂)) (h : ∀ m ∈ g₂.root.all, m.Handed) :
    ∀ row ∈ c.rows, g₂.root.isJoined row.toDocument = true := by
  obtain ⟨hformed, hrows⟩ := rows_of_batch hb hr he hf
  rw [hrows, List.forall_mem_map]
  exact fun host hhost => (isJoined_shape hformed host).trans (agrees_of_handed h host hhost)

/-- Where no node has two children, every row has something at the end of every edge. -/
theorem isJoined_of_single (hb : g.Built) (hr : g.Reached g₁) (he : g.fetcher.combination = .expand)
    (hf : g₁.fetch = (.ok (.batch c), g₂)) (h : ∀ m ∈ g.root.all, m.children.length ≤ 1) :
    ∀ row ∈ c.rows, g₂.root.isJoined row.toDocument = true := by
  obtain ⟨hal, -⟩ := full_of_batch hb hr hf
  refine isJoined_of_handed hb hr he hf fun m hm => handed_of_length_le ?_
  obtain ⟨m', hm', ha⟩ := hal.symm.exists_all hm
  exact ha.length_eq ▸ h m' hm'

/-- **Where later edges start at the primary key** and all keys are texts and integers, every row has something
at the end of every edge: the host that asked for a row is the only one that joins with it. -/
theorem isJoined_of_primaryKeys (hb : g.Built) (hr : g.Reached g₁) (he : g.fetcher.combination = .expand)
    (hf : g₁.fetch = (.ok (.batch c), g₂)) (hs : g.root.Supplied g.fetcher.registry) (hh : g.root.Hinged)
    (hk : g.root.KeyedAfterFirst) : ∀ row ∈ c.rows, g₂.root.isJoined row.toDocument = true := by
  obtain ⟨hal, hfull⟩ := full_of_batch hb hr hf
  exact isJoined_of_handed hb hr he hf fun m hm => (hfull m hm).handed_of_primaryKeys he
    (fun k hm' => hs.of_alike hal k (mem_all_trans hm hm')) (fun k hm' => hh.of_alike hal k (mem_all_trans hm hm'))
    fun k hm' => hk.of_alike hal k (mem_all_trans hm hm')

/-- The orders of the store with lines, with their products first and then their lines, which are reached by the
orders' key: the product of the first is unknown, and lines are asked for the second alone. -/
theorem isJoined_of_primaryKeys_lines : ∃ (root : Node) (after : Catalog) (g₁ g₂ : Graph) (c : Collection),
    Node.ofQuery? (Shop.catalog Shop.lines) "Orders"
      [⟨"product/id", .compare .ge, "0"⟩, ⟨"lines/id", .compare .ge, "0"⟩] [] = (.ok root, after) ∧
    (ofRoot (Shop.registry Shop.lines) .expand 10 root).Reached g₁ ∧ g₁.fetch = (.ok (.batch c), g₂) ∧
    c.rows.map (·.value? "id") = [some (.int 2)] ∧ ∀ row ∈ c.rows, g₂.root.isJoined row.toDocument = true := by
  obtain ⟨root, after, g₁, g₂, c, hq, hr, hf, htest⟩ := Shop.exists_first Shop.lines .expand 10
    [⟨"product/id", .compare .ge, "0"⟩, ⟨"lines/id", .compare .ge, "0"⟩] [] (fun root _ c _ =>
      decide (root.Supplied (Shop.registry Shop.lines)) && decide root.Hinged && decide root.KeyedAfterFirst &&
        decide (c.rows.map (·.value? "id") = [some (.int 2)])) (by decide +kernel)
  obtain ⟨⟨⟨hs, hh⟩, hk⟩, hids⟩ := by simpa only [Bool.and_eq_true, decide_eq_true_eq] using htest
  exact ⟨root, after, g₁, g₂, c, hq, hr, hf, hids,
    isJoined_of_primaryKeys (.ofRoot (.ofConfig _ _) hq _ _ _) hr rfl hf hs hh hk⟩

/-- **Where a batch is one host**, every row has something at the end of every edge. -/
theorem isJoined_of_batchSize (hb : g.Built) (hr : g.Reached g₁) (he : g.fetcher.combination = .expand)
    (hf : g₁.fetch = (.ok (.batch c), g₂)) (hsize : g.fetcher.batchSize ≤ 1) :
    ∀ row ∈ c.rows, g₂.root.isJoined row.toDocument = true := by
  obtain ⟨-, hfull⟩ := full_of_batch hb hr hf
  exact isJoined_of_handed hb hr he hf fun m hm => (hfull m hm).handed_of_batchSize he hsize

end Graph

end PathQuery
