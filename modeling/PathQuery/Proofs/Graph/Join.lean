import PathQuery.Graph.Join
import PathQuery.Proofs.Result.Layout

/-!
# Proofs/Graph/Join — joining by keys, as a relation between rows

`Navigation.joins` says that an edge joins a host with a related row.  Narrowing keeps the hosts that join
with some row, and moving takes them over in the order of the rows, each host with the first row that it
joins with (`taken`).
-/

namespace PathQuery

/-! ## Rows that join -/

/-- Whether an edge joins a host with a related row: both have the same key. -/
def Navigation.joins (edge : Navigation) (host related : Entity) : Bool :=
  match related.keyOf edge.relatedKey with
  | .ok key => host.hasKey edge.hostKey key
  | .error _ => false

theorem Navigation.joins_iff {edge : Navigation} {host related : Entity} :
    edge.joins host related = true ↔
      ∃ key, host.keyOf edge.hostKey = .ok key ∧ related.keyOf edge.relatedKey = .ok key := by
  rw [joins]
  split
  · rename_i key hk
    rw [Entity.hasKey_iff]
    exact ⟨fun h => ⟨key, h, hk⟩, fun ⟨key', h, hk'⟩ => by rw [h, ← hk', hk]⟩
  · rename_i f hf
    exact ⟨by rintro ⟨⟩, fun ⟨key, _, hk⟩ => (nomatch hf.symm.trans hk)⟩

theorem Navigation.joins_eq_hasKey {edge : Navigation} {related : Entity} {key : IndexKey}
    (h : related.keyOf edge.relatedKey = .ok key) (host : Entity) :
    edge.joins host related = host.hasKey edge.hostKey key := by
  rw [joins, h]

/-! ## Documents that join -/

/-- The key of a document in a field. -/
def Document.key? (doc : Document) (field : String) : Option IndexKey :=
  (doc.get? field).bind IndexKey.ofValue?

/-- Whether two documents have the same key at the two ends of an edge. -/
def Navigation.Links (edge : Navigation) (host related : Document) : Prop :=
  ∃ key, host.key? edge.hostKey = some key ∧ related.key? edge.relatedKey = some key

theorem Document.keyOf_ofDocument (doc : Document) (field : String) (key : IndexKey) :
    (Entity.ofDocument doc).keyOf field = .ok key ↔ doc.key? field = some key := by
  rw [Entity.keyOf, Entity.value?_ofDocument, key?]
  cases doc.get? field with
  | none => simp
  | some v => cases hv : IndexKey.ofValue? v <;> simp [hv]

/-- Documents with different keys become rows with different keys. -/
theorem Document.pairwise_keyOf {docs : List Document} {field : String}
    (h : docs.Pairwise fun a b => a.key? field ≠ b.key? field) :
    (docs.map Entity.ofDocument).Pairwise fun a b => a.keyOf field ≠ b.keyOf field :=
  List.pairwise_map.mpr (h.imp fun {a b} hne he => hne <| Option.ext fun key => by
    rw [← keyOf_ofDocument, ← keyOf_ofDocument, he])

theorem Navigation.links_iff {edge : Navigation} {host related : Document} :
    edge.Links host related ↔ edge.joins (Entity.ofDocument host) (Entity.ofDocument related) = true := by
  rw [joins_iff, Links]
  simp only [Document.keyOf_ofDocument]

namespace Collection

variable {hosts c d : Collection} {m n : Member} {edge : Navigation}

/-! ## Members of one collection -/

/-- Members of one identity are one. -/
theorem Apart.eq_of_identity (h : c.Apart) (hm : m ∈ c.members) (hn : n ∈ c.members)
    (he : m.identity = n.identity) : m = n := by
  obtain ⟨s, hs⟩ := mem_members_iff.mp hm
  obtain ⟨t, ht⟩ := mem_members_iff.mp hn
  obtain rfl := h hs ht he
  exact Option.some.inj (hs.symm.trans ht)

/-- Members of one primary key are one. -/
theorem Valid.eq_of_key (h : c.Valid) (hm : m ∈ c.members) (hn : n ∈ c.members) {field : String}
    (hf : c.primaryKey = some field) {key : IndexKey} (hmk : m.entity.keyOf field = .ok key)
    (hnk : n.entity.keyOf field = .ok key) : m = n := by
  obtain ⟨s, hs⟩ := mem_members_iff.mp hm
  obtain ⟨t, ht⟩ := mem_members_iff.mp hn
  obtain rfl := h.eq_of_mem_slotsWith hf (mem_slotsWith.mpr ⟨m, hs, hmk⟩)
    (mem_slotsWith.mpr ⟨n, ht, hnk⟩)
  exact Option.some.inj (hs.symm.trans ht)

/-- The members of a collection are some of the hosts, told apart as the hosts are or by identity. -/
structure Within (hosts c : Collection) : Prop where
  valid : c.Valid
  apart : c.Apart
  subset : ∀ m ∈ c.members, m ∈ hosts.members
  key : c.primaryKey = none ∨ c.primaryKey = hosts.primaryKey
  tracks : ∀ field, c.Tracks field → hosts.Tracks field

/-- **Among hosts**, a host is present in a collection if it is a member. -/
theorem Within.present_iff (h : Within hosts c) (hv : hosts.Valid) (ha : hosts.Apart)
    (hm : m ∈ hosts.members) : c.Present m ↔ m ∈ c.members := by
  rw [Present]
  split
  · rename_i field hf
    have hhost : hosts.primaryKey = some field :=
      (h.key.resolve_left fun hn => absurd (hf.symm.trans hn) (Option.some_ne_none field)) ▸ hf
    constructor
    · rintro ⟨n, hn, key, hmk, hnk⟩
      exact hv.eq_of_key hm (h.subset n hn) hhost hmk hnk ▸ hn
    · intro hc
      obtain ⟨key, hk⟩ := hv.keyed field (.inl hhost) m hm
      exact ⟨m, hc, key, hk, hk⟩
  · constructor
    · rintro ⟨n, hn, he⟩
      exact ha.eq_of_identity (h.subset n hn) hm he ▸ hn
    · exact fun hc => ⟨m, hc, rfl⟩

theorem within_emptyLike (hv : hosts.Valid) : Within hosts hosts.emptyLike :=
  ⟨hv.toWellLaid.emptyLike, apart_of_slots_eq_nil rfl, by rintro _ ⟨⟩, .inr rfl,
    fun field => (tracks_congr (layout_emptyLike hosts) field).mp⟩

/-- A host that is added comes to the end, unless it is a member. -/
theorem Within.add_cases (h : Within hosts c) (hv : hosts.Valid) (ha : hosts.Apart)
    (hm : m ∈ hosts.members) {isNew : Bool} (hadd : c.add m = .ok (isNew, d)) :
    Within hosts d ∧ d.layout = c.layout ∧
      (m ∈ c.members ∧ d = c ∨ m ∉ c.members ∧ d.members = c.members ++ [m]) := by
  rcases h.valid.add_cases hadd with ⟨hp, rfl⟩ | ⟨hp, hvd, hs, hl, -⟩
  · exact ⟨h, rfl, .inl ⟨(h.present_iff hv ha hm).mp hp, rfl⟩⟩
  · have hnot : m ∉ c.members := fun hc => hp ((h.present_iff hv ha hm).mpr hc)
    have hmem := members_of_slots hs
    refine ⟨⟨hvd, apart_of_slots hs h.apart fun n hn he => ?_, fun n hn => ?_, ?_,
      fun field hf => h.tracks field ((tracks_congr hl field).mp hf)⟩, hl, .inr ⟨hnot, hmem⟩⟩
    · exact hnot (ha.eq_of_identity (h.subset n hn) hm he ▸ hn)
    · rw [hmem, List.mem_append, List.mem_singleton] at hn
      exact hn.elim (h.subset n) fun he => he ▸ hm
    · exact (layout_eq_iff.mp hl).2.1 ▸ h.key

/-! ## Narrowing -/

theorem within_addAll (h : Within hosts c) (hv : hosts.Valid) (ha : hosts.Apart)
    {ms : List Member} (hms : ∀ m ∈ ms, m ∈ hosts.members) (hadd : c.addAll ms = (.ok (), d)) :
    Within hosts d ∧ ∀ m, m ∈ d.members ↔ m ∈ c.members ∨ m ∈ ms := by
  induction ms generalizing c with
  | nil => cases hadd; exact ⟨h, by simp⟩
  | cons m rest ih =>
    rw [addAll] at hadd
    split at hadd
    · rename_i isNew c' hm
      obtain ⟨hw, -, hcases⟩ := h.add_cases hv ha (hms m (.head _)) hm
      obtain ⟨hwd, hmem⟩ := ih hw (fun n hn => hms n (.tail _ hn)) hadd
      refine ⟨hwd, fun n => ?_⟩
      rw [hmem, List.mem_cons]
      rcases hcases with ⟨hc, rfl⟩ | ⟨-, hc⟩
      · exact ⟨fun h => h.imp id .inr, fun h => h.elim .inl fun h => h.elim (fun he => .inl (he ▸ hc)) .inr⟩
      · rw [hc, List.mem_append, List.mem_singleton, or_assoc]
    · obtain ⟨⟩ := hadd

theorem mem_addJoined {row : Entity} (h : Within hosts c) (hv : hosts.Valid) (ha : hosts.Apart)
    (hadd : addJoined edge hosts c row = .ok d) :
    Within hosts d ∧ ∀ m, m ∈ d.members ↔
      m ∈ c.members ∨ m ∈ hosts.members ∧ edge.joins m.entity row = true := by
  obtain ⟨key, hk, hadd⟩ := bind_eq_ok.mp hadd
  obtain ⟨ms, hms, hadd⟩ := bind_eq_ok.mp hadd
  obtain ⟨-, rfl⟩ := hv.eq_of_membersBy hms
  split at hadd
  · rename_i c' hall
    cases hadd
    obtain ⟨hw, hmem⟩ := within_addAll h hv ha (fun m hm => (List.mem_filter.mp hm).1) hall
    refine ⟨hw, fun m => ?_⟩
    rw [hmem, List.mem_filter, Navigation.joins_eq_hasKey hk]
  · obtain ⟨⟩ := hadd

theorem mem_foldlM_addJoined {rows : List Entity} (h : Within hosts c) (hv : hosts.Valid)
    (ha : hosts.Apart) (hadd : rows.foldlM (addJoined edge hosts) c = .ok d) :
    Within hosts d ∧ ∀ m, m ∈ d.members ↔
      m ∈ c.members ∨ m ∈ hosts.members ∧ ∃ row ∈ rows, edge.joins m.entity row = true := by
  induction rows generalizing c with
  | nil => cases hadd; exact ⟨h, by simp⟩
  | cons row rest ih =>
    obtain ⟨c', hrow, hadd⟩ := foldlM_cons_eq_ok.mp hadd
    obtain ⟨hw, hmem⟩ := mem_addJoined h hv ha hrow
    obtain ⟨hwd, hmemd⟩ := ih hw hadd
    refine ⟨hwd, fun m => ?_⟩
    rw [hmemd, hmem]
    simp only [List.mem_cons, exists_eq_or_imp]
    tauto

/-- **Narrowing keeps the hosts that join with some row.** -/
theorem mem_joining {related : Collection} (hv : hosts.Valid) (ha : hosts.Apart)
    (hn : related.navigation = .ok edge) (h : hosts.joining related = .ok c) :
    c.Valid ∧ ∀ m, m ∈ c.members ↔
      m ∈ hosts.members ∧ ∃ row ∈ related.rows, edge.joins m.entity row = true := by
  obtain ⟨edge', he, h⟩ := bind_eq_ok.mp h
  cases hn.symm.trans he
  obtain ⟨hw, hmem⟩ := mem_foldlM_addJoined (within_emptyLike hv) hv ha h
  refine ⟨hw.valid, fun m => ?_⟩
  rw [hmem, members_emptyLike]
  simp

/-! ## Moving -/

/-- The hosts in the order of the first row that each joins with. -/
def taken (edge : Navigation) : List Entity → List Member → List Member
  | [], _ => []
  | row :: rest, hosts =>
    hosts.filter (fun m => edge.joins m.entity row) ++
      taken edge rest (hosts.filter fun m => !edge.joins m.entity row)

theorem mem_taken {rows : List Entity} {ms : List Member} :
    m ∈ taken edge rows ms ↔ m ∈ ms ∧ ∃ row ∈ rows, edge.joins m.entity row = true := by
  induction rows generalizing ms with
  | nil => simp [taken]
  | cons row rest ih =>
    rw [taken, List.mem_append, ih, List.mem_filter, List.mem_filter]
    simp only [List.mem_cons, exists_eq_or_imp, Bool.not_eq_true']
    cases edge.joins m.entity row <;> simp

/-- The hosts that join with some row, ordered by the first row that each joins with and then as they were. -/
def byFirst (edge : Navigation) (rows : List Entity) (hosts : List Member) : List Member :=
  (List.range rows.length).flatMap fun i =>
    hosts.filter fun m => rows.findIdx? (edge.joins m.entity) == some i

/-- Taking the hosts row by row orders them by the first row that each joins with. -/
theorem taken_eq_byFirst (rows : List Entity) (hosts : List Member) :
    taken edge rows hosts = byFirst edge rows hosts := by
  induction rows generalizing hosts with
  | nil => rfl
  | cons row rest ih =>
    rw [taken, ih, byFirst, byFirst, List.length_cons, List.range_succ_eq_map, List.flatMap_cons,
      List.flatMap_map]
    refine congrArg₂ _ (List.filter_congr fun m _ => ?_) (List.flatMap_congr fun i _ => ?_)
    · rw [List.findIdx?_cons]
      cases edge.joins m.entity row <;> simp
    · rw [List.filter_filter]
      refine List.filter_congr fun m _ => ?_
      rw [List.findIdx?_cons]
      cases edge.joins m.entity row <;> simp

/-- **Each host that joins with some row is there once.** -/
theorem byFirst_perm (rows : List Entity) (hosts : List Member) :
    (byFirst edge rows hosts).Perm (hosts.filter fun m => rows.any (edge.joins m.entity)) := by
  rw [← taken_eq_byFirst]
  induction rows generalizing hosts with
  | nil => simp [taken]
  | cons row rest ih =>
    -- the hosts of the first row, and those of the others among the hosts that are left
    refine ((ih _).append_left _).trans ?_
    refine .trans ?_ (List.filter_append_perm (fun m => edge.joins m.entity row) _)
    rw [List.filter_filter, List.filter_filter, List.filter_filter]
    refine .of_eq (congrArg₂ _ (List.filter_congr fun m _ => ?_) (List.filter_congr fun m _ => ?_)) <;>
      cases h : edge.joins m.entity row <;> simp [h]

/-- The results of a host and those of a child that an edge joins: the rows of both are found by their keys. -/
structure Attached (hosts child : Collection) (edge : Navigation) : Prop where
  valid : child.Valid
  navigation : child.navigation = .ok edge
  host : hosts.Tracks edge.hostKey
  related : child.Tracks edge.relatedKey

theorem Attached.isKeyed_related {child : Collection} (h : Attached hosts child edge) :
    ∀ row ∈ child.rows, row.IsKeyed edge.relatedKey := by
  intro row hr
  obtain ⟨m, hm, rfl⟩ := List.mem_map.mp hr
  exact h.valid.keyed _ h.related m hm

/-- What is left of the hosts, and what was taken from them. -/
structure Transfer.Sound (hosts : Collection) (t : Transfer) : Prop where
  source : Within hosts t.source
  target : Within hosts t.target
  tracks : ∀ field, hosts.Tracks field → t.source.Tracks field
  disjoint : ∀ m ∈ t.source.members, m ∉ t.target.members

theorem Transfer.Sound.move {t t' : Transfer} (h : t.Sound hosts) (hv : hosts.Valid)
    (ha : hosts.Apart) (hm : m ∈ t.source.members) (ht : t.move m = .ok t') :
    t'.Sound hosts ∧ t'.target.members = t.target.members ++ [m] ∧
      t'.source.members = t.source.members.filter (fun n => n.identity != m.identity) ∧
      t'.target.layout = t.target.layout := by
  obtain ⟨⟨isNew, target⟩, hadd, ht⟩ := bind_eq_ok.mp ht
  have hhost := h.source.subset m hm
  obtain ⟨hw, hl, hcases⟩ := h.target.add_cases hv ha hhost hadd
  obtain ⟨-, hmem⟩ := hcases.resolve_left fun hc => h.disjoint m hm hc.1
  obtain ⟨source, hr, hvs, has, hls, hsrc⟩ := h.source.valid.exists_remove h.source.apart hm
  simp only [hr] at ht
  cases ht
  have hsub : ∀ n ∈ source.members, n ∈ t.source.members ∧ n.identity ≠ m.identity := by
    intro n hn
    rw [hsrc, List.mem_filter] at hn
    exact ⟨hn.1, bne_iff_ne.mp hn.2⟩
  have htracks := tracks_congr hls
  refine ⟨⟨⟨hvs, has, fun n hn => h.source.subset n (hsub n hn).1, ?_, fun field hf => ?_⟩, hw,
    fun field hf => (htracks field).mpr (h.tracks field hf), fun n hn ht => ?_⟩, hmem, hsrc, hl⟩
  · exact (layout_eq_iff.mp hls).2.1 ▸ h.source.key
  · exact h.source.tracks field ((htracks field).mp hf)
  · rw [hmem, List.mem_append, List.mem_singleton] at ht
    rcases ht with ht | rfl
    · exact h.disjoint n (hsub n hn).1 ht
    · exact (hsub n hn).2 rfl

/-- The members are told apart by their identity. -/
theorem Apart.pairwise (h : c.Apart) : c.members.Pairwise fun a b => a.identity ≠ b.identity := by
  rw [members_eq, List.pairwise_filterMap]
  refine List.nodup_range.imp fun {s t} hst m hm n hn he => hst ?_
  exact h hm hn he

/-- The members of other identities are left once one was taken out. -/
theorem mem_left {rest : List Member} (hms : ∀ n ∈ m :: rest, n ∈ c.members)
    (hm : ∀ n ∈ rest, m.identity ≠ n.identity)
    (hd : d.members = c.members.filter fun n => n.identity != m.identity) :
    ∀ n ∈ rest, n ∈ d.members := by
  intro n hn
  rw [hd, List.mem_filter]
  exact ⟨hms n (.tail _ hn), bne_iff_ne.mpr (hm n hn).symm⟩

theorem Transfer.Sound.moveAll {t t' : Transfer} {ms : List Member} (h : t.Sound hosts)
    (hv : hosts.Valid) (ha : hosts.Apart) (hms : ∀ m ∈ ms, m ∈ t.source.members)
    (hn : ms.Pairwise fun a b => a.identity ≠ b.identity)
    (ht : ms.foldlM Transfer.move t = .ok t') :
    t'.Sound hosts ∧ t'.target.members = t.target.members ++ ms ∧
      t'.source.members =
        t.source.members.filter (fun n => ms.all fun m => n.identity != m.identity) ∧
      t'.target.layout = t.target.layout := by
  induction ms generalizing t with
  | nil => cases ht; exact ⟨h, by simp, by simp, rfl⟩
  | cons m rest ih =>
    obtain ⟨t₁, hm, ht⟩ := foldlM_cons_eq_ok.mp ht
    obtain ⟨hm', hrest⟩ := List.pairwise_cons.mp hn
    obtain ⟨h₁, htar, hsrc, hl⟩ := h.move hv ha (hms m (.head _)) hm
    obtain ⟨h₂, htar₂, hsrc₂, hl₂⟩ := ih h₁ (mem_left hms hm' hsrc) hrest ht
    refine ⟨h₂, ?_, ?_, hl₂.trans hl⟩
    · rw [htar₂, htar, List.append_assoc, List.singleton_append]
    · rw [hsrc₂, hsrc, List.filter_filter]
      exact List.filter_congr fun n _ => by simp [Bool.and_comm]

theorem Transfer.Sound.moveJoined {t t' : Transfer} {row : Entity} (h : t.Sound hosts)
    (hv : hosts.Valid) (ha : hosts.Apart) (ht : t.moveJoined edge row = .ok t') :
    t'.Sound hosts ∧
      t'.target.members =
        t.target.members ++ t.source.members.filter (fun m => edge.joins m.entity row) ∧
      t'.source.members = t.source.members.filter (fun m => !edge.joins m.entity row) ∧
      t'.target.layout = t.target.layout := by
  obtain ⟨key, hk, ht⟩ := bind_eq_ok.mp ht
  obtain ⟨ms, hms, ht⟩ := bind_eq_ok.mp ht
  have hfilter : ms = t.source.members.filter fun m => edge.joins m.entity row := by
    rw [(h.source.valid.eq_of_membersBy hms).2]
    exact List.filter_congr fun m _ => (Navigation.joins_eq_hasKey hk m.entity).symm
  subst hfilter
  obtain ⟨h', htar, hsrc, hl⟩ := h.moveAll hv ha (fun m hm => (List.mem_filter.mp hm).1)
    (h.source.apart.pairwise.filter _) ht
  refine ⟨h', htar, hsrc.trans (List.filter_congr fun n hn => ?_), hl⟩
  -- a host that is left joins with no row, since one of the same identity would be itself
  rw [Bool.eq_iff_iff, List.all_eq_true, Bool.not_eq_true']
  constructor
  · intro hall
    refine Bool.eq_false_iff.mpr fun hj => ?_
    exact bne_iff_ne.mp (hall n (List.mem_filter.mpr ⟨hn, hj⟩)) rfl
  · intro hj m hm
    refine bne_iff_ne.mpr fun he => ?_
    obtain ⟨hm, hjm⟩ := List.mem_filter.mp hm
    rw [h.source.apart.eq_of_identity hn hm he, hjm] at hj
    obtain ⟨⟩ := hj

/-- An empty collection that can take over hosts. -/
structure Target (hosts target : Collection) : Prop where
  valid : target.Valid
  slots_eq : target.slots = []
  key : target.primaryKey = none ∨ target.primaryKey = hosts.primaryKey
  tracks : ∀ field, target.Tracks field → hosts.Tracks field

theorem target_emptyLike (hv : hosts.Valid) : Target hosts hosts.emptyLike :=
  ⟨hv.toWellLaid.emptyLike, rfl, .inr rfl, (within_emptyLike hv).tracks⟩

theorem Target.members_eq {target : Collection} (h : Target hosts target) : target.members = [] := by
  rw [members, h.slots_eq]
  rfl

theorem Target.sound {target : Collection} (h : Target hosts target) (hv : hosts.Valid)
    (ha : hosts.Apart) : Transfer.Sound hosts ⟨hosts, target⟩ where
  source := ⟨hv, ha, fun _ h => h, .inr rfl, fun _ h => h⟩
  target := ⟨h.valid, apart_of_slots_eq_nil h.slots_eq, by simp [h.members_eq], h.key, h.tracks⟩
  tracks := fun _ h => h
  disjoint := by simp [h.members_eq]

theorem Transfer.Sound.foldlM_moveJoined {rows : List Entity} {t t' : Transfer} (h : t.Sound hosts)
    (hv : hosts.Valid) (ha : hosts.Apart)
    (ht : rows.foldlM (Transfer.moveJoined edge) t = .ok t') :
    t'.Sound hosts ∧ t'.target.layout = t.target.layout ∧
      t'.target.members = t.target.members ++ taken edge rows t.source.members := by
  induction rows generalizing t with
  | nil => cases ht; exact ⟨h, rfl, by simp [taken]⟩
  | cons row rest ih =>
    obtain ⟨t₁, hrow, ht⟩ := foldlM_cons_eq_ok.mp ht
    obtain ⟨h₁, htar, hsrc, hl⟩ := h.moveJoined hv ha hrow
    obtain ⟨h', hl', hmem⟩ := ih h₁ ht
    refine ⟨h', hl'.trans hl, ?_⟩
    rw [hmem, htar, hsrc, taken, List.append_assoc]

/-- **Moving takes over the hosts that join with some row**, in the order of the rows. -/
theorem members_moveJoined {related target : Collection} (hv : hosts.Valid) (ha : hosts.Apart)
    (ht : Target hosts target) (h : moveJoined edge related hosts target = .ok c) :
    c.Valid ∧ c.Apart ∧ c.layout = target.layout ∧
      c.members = taken edge related.rows hosts.members := by
  obtain ⟨t, hfold, rfl⟩ := map_eq_ok.mp h
  obtain ⟨hs, hl, hmem⟩ := (ht.sound hv ha).foldlM_moveJoined hv ha hfold
  refine ⟨hs.target.valid, hs.target.apart, hl, ?_⟩
  rw [hmem, ht.members_eq, List.nil_append]

/-! ## Joining does not fail where keys are there -/

theorem Within.exists_add (h : Within hosts c) (hv : hosts.Valid) (hm : m ∈ hosts.members) :
    ∃ isNew d, c.add m = .ok (isNew, d) :=
  Collection.exists_add fun field hf => hv.keyed field (h.tracks field hf) m hm

theorem Within.exists_addAll (h : Within hosts c) (hv : hosts.Valid) (ha : hosts.Apart)
    {ms : List Member} (hms : ∀ m ∈ ms, m ∈ hosts.members) : ∃ d, c.addAll ms = (.ok (), d) := by
  induction ms generalizing c with
  | nil => exact ⟨c, rfl⟩
  | cons m rest ih =>
    obtain ⟨isNew, d, hadd⟩ := h.exists_add hv (hms m (.head _))
    obtain ⟨hw, -, -⟩ := h.add_cases hv ha (hms m (.head _)) hadd
    rw [addAll, hadd]
    exact ih hw fun n hn => hms n (.tail _ hn)

theorem Within.exists_addJoined {row : Entity} (h : Within hosts c) (hv : hosts.Valid)
    (ha : hosts.Apart) (hf : hosts.Tracks edge.hostKey) (hk : row.IsKeyed edge.relatedKey) :
    ∃ d, addJoined edge hosts c row = .ok d := by
  obtain ⟨key, hkey⟩ := hk
  have hin : ∀ m ∈ hosts.members.filter (·.entity.hasKey edge.hostKey key), m ∈ hosts.members :=
    fun m hm => (List.mem_filter.mp hm).1
  obtain ⟨d, hadd⟩ := h.exists_addAll hv ha hin
  refine ⟨d, ?_⟩
  rw [addJoined, hkey]
  simp only [bind, Except.bind, hv.membersBy_eq hf, hadd]

theorem Within.exists_foldlM_addJoined {rows : List Entity} (h : Within hosts c) (hv : hosts.Valid)
    (ha : hosts.Apart) (hf : hosts.Tracks edge.hostKey)
    (hk : ∀ row ∈ rows, row.IsKeyed edge.relatedKey) :
    ∃ d, rows.foldlM (addJoined edge hosts) c = .ok d := by
  induction rows generalizing c with
  | nil => exact ⟨c, rfl⟩
  | cons row rest ih =>
    obtain ⟨c', hrow⟩ := h.exists_addJoined hv ha hf (hk row (.head _))
    obtain ⟨hw, -⟩ := mem_addJoined h hv ha hrow
    obtain ⟨d, hd⟩ := ih hw fun r hr => hk r (.tail _ hr)
    exact ⟨d, foldlM_cons_eq_ok.mpr ⟨c', hrow, hd⟩⟩

/-- Hosts that are found by the edge's key are narrowed by rows that have the edge's other key. -/
theorem exists_joining {related : Collection} (hv : hosts.Valid) (ha : hosts.Apart)
    (hn : related.navigation = .ok edge) (hf : hosts.Tracks edge.hostKey)
    (hk : ∀ row ∈ related.rows, row.IsKeyed edge.relatedKey) :
    ∃ c, hosts.joining related = .ok c := by
  obtain ⟨c, hc⟩ := (within_emptyLike hv).exists_foldlM_addJoined hv ha hf hk
  exact ⟨c, by rw [joining, hn]; exact hc⟩

theorem Transfer.Sound.exists_move {t : Transfer} (h : t.Sound hosts) (hv : hosts.Valid)
    (hm : m ∈ t.source.members) : ∃ t', t.move m = .ok t' := by
  obtain ⟨isNew, target, hadd⟩ := h.target.exists_add hv (h.source.subset m hm)
  obtain ⟨source, hr, -⟩ := h.source.valid.exists_remove h.source.apart hm
  exact ⟨⟨source, target⟩, by rw [Transfer.move, hadd]; simp only [bind, Except.bind, hr]⟩

theorem Transfer.Sound.exists_moveAll {t : Transfer} {ms : List Member} (h : t.Sound hosts)
    (hv : hosts.Valid) (ha : hosts.Apart) (hms : ∀ m ∈ ms, m ∈ t.source.members)
    (hn : ms.Pairwise fun a b => a.identity ≠ b.identity) :
    ∃ t', ms.foldlM Transfer.move t = .ok t' := by
  induction ms generalizing t with
  | nil => exact ⟨t, rfl⟩
  | cons m rest ih =>
    obtain ⟨hm', hrest⟩ := List.pairwise_cons.mp hn
    obtain ⟨t₁, hm⟩ := h.exists_move hv (hms m (.head _))
    obtain ⟨h₁, -, hsrc, -⟩ := h.move hv ha (hms m (.head _)) hm
    obtain ⟨t', ht⟩ := ih h₁ (mem_left hms hm' hsrc) hrest
    exact ⟨t', foldlM_cons_eq_ok.mpr ⟨t₁, hm, ht⟩⟩

theorem Transfer.Sound.exists_moveJoined {t : Transfer} {row : Entity} (h : t.Sound hosts)
    (hv : hosts.Valid) (ha : hosts.Apart) (hf : hosts.Tracks edge.hostKey)
    (hk : row.IsKeyed edge.relatedKey) : ∃ t', t.moveJoined edge row = .ok t' := by
  obtain ⟨key, hkey⟩ := hk
  have hin : ∀ m ∈ t.source.members.filter (·.entity.hasKey edge.hostKey key),
      m ∈ t.source.members := fun m hm => (List.mem_filter.mp hm).1
  obtain ⟨t', hms⟩ := h.exists_moveAll hv ha hin (h.source.apart.pairwise.filter _)
  refine ⟨t', ?_⟩
  rw [Transfer.moveJoined, hkey]
  simp only [bind, Except.bind, h.source.valid.membersBy_eq (h.tracks _ hf)]
  exact hms

theorem Transfer.Sound.exists_foldlM_moveJoined {rows : List Entity} {t : Transfer}
    (h : t.Sound hosts) (hv : hosts.Valid) (ha : hosts.Apart) (hf : hosts.Tracks edge.hostKey)
    (hk : ∀ row ∈ rows, row.IsKeyed edge.relatedKey) :
    ∃ t', rows.foldlM (Transfer.moveJoined edge) t = .ok t' := by
  induction rows generalizing t with
  | nil => exact ⟨t, rfl⟩
  | cons row rest ih =>
    obtain ⟨t₁, hrow⟩ := h.exists_moveJoined hv ha hf (hk row (.head _))
    obtain ⟨h₁, -⟩ := h.moveJoined hv ha hrow
    obtain ⟨t', ht⟩ := ih h₁ fun r hr => hk r (.tail _ hr)
    exact ⟨t', foldlM_cons_eq_ok.mpr ⟨t₁, hrow, ht⟩⟩

/-- Hosts that are found by the edge's key are moved by rows that have the edge's other key. -/
theorem exists_moveJoined {related target : Collection} (hv : hosts.Valid) (ha : hosts.Apart)
    (ht : Target hosts target) (hf : hosts.Tracks edge.hostKey)
    (hk : ∀ row ∈ related.rows, row.IsKeyed edge.relatedKey) :
    ∃ c, moveJoined edge related hosts target = .ok c := by
  obtain ⟨t, h⟩ := (ht.sound hv ha).exists_foldlM_moveJoined hv ha hf hk
  exact ⟨t.target, by rw [moveJoined, h]; rfl⟩

/-! ## Small results -/

/-- Adds documents under numbers from one on, as far as they can be added. -/
def addDocuments (c : Collection) (count : Nat) : List Document → Collection
  | [] => c
  | doc :: rest =>
    match c.add ⟨count, .ofDocument doc⟩ with
    | .ok (_, d) => addDocuments d (count + 1) rest
    | .error _ => addDocuments c (count + 1) rest

/-- Some documents as the results at the end of an edge, with primary key `id` and an index. -/
def ofDocuments (edge : Option Navigation) (index : String) (docs : List Document) : Collection :=
  (((empty (some ⟨0, "", edge⟩)).withPrimaryKey "id").withIndex index).addDocuments 0 docs

theorem Numbered.addDocuments {count : Nat} (h : c.Numbered count) (docs : List Document) :
    (c.addDocuments count docs).Numbered (count + docs.length) := by
  induction docs generalizing c count with
  | nil => exact h
  | cons doc rest ih =>
    rw [List.length_cons, Nat.add_comm rest.length, ← Nat.add_assoc, Collection.addDocuments.eq_def]
    dsimp only
    split
    · exact ih (h.add ‹_›).1
    · exact ih h.mono

theorem numbered_ofDocuments (edge : Option Navigation) (index : String) (docs : List Document) :
    (ofDocuments edge index docs).Numbered docs.length := by
  have hb := ((bare_empty (some ⟨0, "", edge⟩)).withPrimaryKey "id").withIndex index
  have hn : Numbered 0 (((empty (some ⟨0, "", edge⟩)).withPrimaryKey "id").withIndex index) :=
    ⟨hb.valid, apart_of_slots_eq_nil hb.slots_eq, by rw [members, hb.slots_eq]; exact List.forall_mem_nil _⟩
  exact Nat.zero_add docs.length ▸ hn.addDocuments docs

namespace Shop

/-- Three orders, the first two of one customer. -/
def orders : Collection := ofDocuments none "buyer" [
  [("id", .int 1), ("buyer", .int 7), ("note", .string "gift")],
  [("id", .int 2), ("buyer", .int 7)], [("id", .int 3), ("buyer", .int 8)]]

/-- The customer of an order. -/
def customer : Navigation := ⟨"customer", true, "buyer", "id", "Customer"⟩

/-- The lines of an order. -/
def lines : Navigation := ⟨"lines", false, "id", "order", "Line"⟩

/-- One of the two customers. -/
def customers : Collection := ofDocuments (some customer) "" [[("id", .int 7)]]

/-- A line of the third order and two of the first. -/
def orderLines : Collection := ofDocuments (some lines) "order" [
  [("id", .int 31), ("order", .int 3)], [("id", .int 11), ("order", .int 1)], [("id", .int 12), ("order", .int 1)]]

theorem attached : ∀ b ∈ [(customers, customer)] ++ [(orderLines, lines)], Attached orders b.1 b.2 :=
  List.forall_mem_cons.mpr ⟨⟨(numbered_ofDocuments _ _ _).valid, rfl, .inr (by decide +kernel), .inl rfl⟩,
    List.forall_mem_singleton.mpr
      ⟨(numbered_ofDocuments _ _ _).valid, rfl, .inl rfl, .inr (by decide +kernel)⟩⟩

end Shop

end Collection

end PathQuery
