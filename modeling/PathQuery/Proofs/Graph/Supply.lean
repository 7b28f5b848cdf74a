import PathQuery.Proofs.Graph.Flat
import PathQuery.Proofs.Value

/-!
# Proofs/Graph/Supply — trees whose documents have all the keys they are found by

A node finds its rows by its primary key and by the keys of the edges at it.  A tree is supplied if every
document has a text or an integer in these fields and no two documents have the same primary key.
-/

namespace PathQuery.Node

variable {r : Registry} {n m : Node}

/-- The resource of each node is there; its documents have keys in the fields by which the node finds its
rows, and no two have the same primary key. -/
def Supplied (r : Registry) (n : Node) : Prop := ∀ m ∈ n.all, ∃ docs,
  r.documentsFor m.plan.request = .ok docs ∧
    (∀ doc ∈ docs, ∀ field, m.progress.results.Tracks field → ∃ v, doc.get? field = some v ∧ v.IsKey) ∧
    ∀ key, m.progress.results.primaryKey = some key → docs.Pairwise fun a b => a.key? key ≠ b.key? key

instance (r : Registry) (n : Node) : Decidable (n.Supplied r) :=
  decidable_of_iff (∀ m ∈ n.all, ∃ docs ∈ (r.documentsFor m.plan.request).toOption,
      (∀ doc ∈ docs, ∀ field ∈ m.progress.results.primaryKey.toList ++ m.progress.results.indexNames,
        ∃ v ∈ doc.get? field, v.IsKey) ∧
      ∀ key ∈ m.progress.results.primaryKey, docs.Pairwise fun a b => a.key? key ≠ b.key? key) <|
    forall₂_congr fun m _ => exists_congr fun docs => by
      cases r.documentsFor m.plan.request <;> simp [Except.toOption, Collection.Tracks]

theorem Supplied.child (h : n.Supplied r) {child : Node} (hc : child ∈ n.children) : child.Supplied r :=
  fun m hm => h m (mem_all_child hc hm)

theorem Supplied.of_alike (h : n.Supplied r) (ha : n.Alike m) : m.Supplied r := by
  intro k hk
  obtain ⟨k', hk', hak⟩ := ha.symm.exists_all hk
  obtain ⟨docs, hdocs, hkeyed, hapart⟩ := h k' hk'
  refine ⟨docs, hak.plan_eq ▸ hdocs, fun doc hd field hf => ?_, fun key hp => ?_⟩
  · exact hkeyed doc hd field ((Collection.tracks_congr hak.layout_eq field).mp hf)
  · exact hapart key ((Collection.layout_eq_iff.mp hak.layout_eq).2.1 ▸ hp)

/-- The documents of a supplied node have texts or integers in the fields by which it finds its rows. -/
theorem Supplied.exists_isKey (h : n.Supplied r) {docs : List Document}
    (hdocs : r.documentsFor n.plan.request = .ok docs) {doc : Document} (hd : doc ∈ docs) {field : String}
    (hf : n.progress.results.Tracks field) : ∃ v, doc.get? field = some v ∧ v.IsKey := by
  obtain ⟨docs', hdocs', hkeyed, -⟩ := h n (mem_all_self n)
  cases hdocs.symm.trans hdocs'
  exact hkeyed doc hd field hf

theorem Supplied.isKeyed (h : n.Supplied r) {docs : List Document}
    (hdocs : r.documentsFor n.plan.request = .ok docs) {doc : Document} (hd : doc ∈ docs) {field : String}
    (hf : n.progress.results.Tracks field) : (Entity.ofDocument doc).IsKeyed field := by
  obtain ⟨v, hv, hkey⟩ := h.exists_isKey hdocs hd hf
  obtain ⟨key, hk, -⟩ := hkey.exists_key
  refine ⟨key, (Document.keyOf_ofDocument doc field key).mpr ?_⟩
  rw [Document.key?, hv]
  exact hk

/-- **A supplied node holds its whole batch**: no document is left out. -/
theorem Supplied.rows_eq {f : Fetcher} {values : Option (List Value)} {past batch ahead : List Document}
    (h : n.Supplied f.registry) (ho : n.Open f values past batch ahead) :
    n.progress.results.rows = batch.map Entity.ofDocument := by
  obtain ⟨got, -, hrows, hall⟩ := ho.rows
  rw [hrows, hall fun field hp => ?_]
  obtain ⟨docs, hdocs, hsub⟩ := ho.exists_sublist
  obtain ⟨docs', hdocs', -, hapart⟩ := h n (mem_all_self n)
  cases hdocs.symm.trans hdocs'
  rw [List.append_assoc] at hsub
  have hbatch := ((List.sublist_append_left _ _).trans (List.sublist_append_right _ _)).trans hsub
  exact Document.pairwise_keyOf ((hapart field hp).sublist hbatch)

end PathQuery.Node
