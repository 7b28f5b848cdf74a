import PathQuery.Graph.Build
import PathQuery.Proofs.Graph.Active
import PathQuery.Proofs.Metadata.Catalog
import PathQuery.Proofs.Result.Layout

/-!
# Proofs/Graph/Build — what is true of every tree that is built

A reached catalog remembers each edge under the name of its property.  So no two edges from one node of a
built tree have the same name, and host and child are laid out for the keys of the edge between them.
-/

namespace PathQuery

/-! ## Collections and nodes without progress -/

theorem Collection.Bare.purge_eq {c : Collection} (h : c.Bare) : c.purge = c := by
  have hi : c.indexes.mapValues (fun _ => ([] : Index)) = c.indexes := by
    rw [Fields.mapValues]
    refine (List.map_congr_left fun entry he => ?_).trans (List.map_id _)
    rw [id, ← h.indexes_eq entry he]
  rw [Collection.purge, hi, ← h.slots_eq, ← h.size_eq, ← h.byKey_eq]

theorem Collection.bare_of_purge_eq {c : Collection} (hl : c.WellLaid) (h : c.purge = c) : c.Bare := by
  refine ⟨hl, ?_, ?_, ?_, fun entry he => ?_⟩
  · rw [← h]; rfl
  · rw [← h]; rfl
  · rw [← h]; rfl
  · rw [← h] at he
    obtain ⟨e, -, rfl⟩ := List.mem_map.mp he
    rfl

namespace Node

/-- A tree that was built and not fetched from. -/
structure Fresh (n : Node) : Prop where
  formed : n.Formed
  blank_eq : n.blank = n

variable {n : Node}

theorem blank_eq_iff : n.blank = n ↔ n.progress.results.purge = n.progress.results ∧
    n.progress.cursor = none ∧ n.progress.childResults = [] ∧
    ∀ child ∈ n.children, child.blank = child := by
  obtain ⟨plan, ⟨results, cursor, kept⟩, children⟩ := n
  have hmap : children.map blank = children ↔ ∀ child ∈ children, child.blank = child := by
    constructor
    · intro h child hc
      obtain ⟨i, hi⟩ := List.mem_iff_getElem?.mp hc
      have := congrArg (·[i]?) h
      simpa [hi] using this
    · exact fun h => (List.map_congr_left h).trans (List.map_id _)
  rw [blank, blankOf_eq]
  simp only [mk.injEq, Progress.mk.injEq, true_and]
  rw [hmap, eq_comm (a := none), eq_comm (a := [])]
  tauto

theorem Fresh.idle (h : n.Fresh) : n.Idle := by
  obtain ⟨-, h⟩ := h
  induction n using Node.induction with
  | node n ih =>
    obtain ⟨-, hc, hk, hall⟩ := blank_eq_iff.mp h
    exact idle_iff.mpr ⟨hc, hk, fun child hm => ih child hm (hall child hm)⟩

theorem Fresh.child (h : n.Fresh) {child : Node} (hc : child ∈ n.children) : child.Fresh :=
  ⟨h.formed.child hc, (blank_eq_iff.mp h.blank_eq).2.2.2 child hc⟩

theorem Fresh.bare (h : n.Fresh) : n.progress.results.Bare :=
  Collection.bare_of_purge_eq h.formed.laid.wellLaid (blank_eq_iff.mp h.blank_eq).1

/-- A tree that has grown from another: more of its rows may be found by their keys. -/
structure Grown (n n' : Node) : Prop where
  fresh : n'.Fresh
  parent : n'.plan.parent = n.plan.parent
  edge : n'.plan.edge = n.plan.edge
  tracks : ∀ field, n.progress.results.Tracks field → n'.progress.results.Tracks field

theorem Joint.of_grown {child child' : Node} {edge : Navigation} (h : Joint n child edge)
    (hg : Grown child child') : Joint n child' edge where
  edge_eq := hg.edge.trans h.edge_eq
  inner := by rw [isRoot, hg.parent]; exact h.inner
  host := h.host
  related := h.related.imp id (hg.tracks _)

theorem Laid.of_eq {m : Node} (h : n.Laid) (hp : m.plan = n.plan)
    (hr : m.progress.results = n.progress.results) : m.Laid := by
  refine ⟨?_, ?_, ?_⟩
  · rw [hr, hp]; exact h.origin
  · rw [hr]; exact h.wellLaid
  · rw [hr, hp]; exact h.key

theorem Joint.of_eq {m child : Node} {edge : Navigation} (h : Joint n child edge)
    (hr : m.progress.results = n.progress.results) : Joint m child edge :=
  ⟨h.edge_eq, h.inner, hr ▸ h.host, h.related⟩

theorem Grown.trans {n' n'' : Node} (h : Grown n n') (h' : Grown n' n'') : Grown n n'' :=
  ⟨h'.fresh, h'.parent.trans h.parent, h'.edge.trans h.edge, fun field hf =>
    h'.tracks field (h.tracks field hf)⟩

/-- A node with another request of the same entity type. -/
theorem Fresh.grown_request (h : n.Fresh) {request : Request}
    (he : request.entity = n.plan.request.entity) :
    Grown n { n with plan := { n.plan with request } } := by
  obtain ⟨plan, progress, children⟩ := n
  have hblank := blank_eq_iff.mp h.blank_eq
  refine ⟨⟨?_, blank_eq_iff.mpr hblank⟩, rfl, rfl, fun _ hf => hf⟩
  refine .node ⟨h.formed.laid.origin, h.formed.laid.wellLaid, fun field hf => ?_⟩ (fun child hc => ?_)
    h.formed.distinct fun child hc => h.formed.child hc
  · exact (congrArg EntityType.primaryKey he).trans (h.formed.laid.key field hf)
  · obtain ⟨edge, hj⟩ := h.formed.joint hc
    exact ⟨edge, hj.edge_eq, hj.inner, hj.host, hj.related⟩

/-- A node with another state of one child. -/
theorem Fresh.grown_setChild (h : n.Fresh) {i : Nat} {child child' : Node}
    (hc : n.children[i]? = some child) (hg : Grown child child') : Grown n (n.setChild i child') := by
  have hi := (List.getElem?_eq_some_iff.mp hc).1
  have hmem : ∀ k ∈ (n.setChild i child').children, k ∈ n.children ∨ k = child' := fun k hk =>
    List.mem_or_eq_of_mem_set hk
  obtain ⟨hp, hcur, hkept, hall⟩ := blank_eq_iff.mp h.blank_eq
  have hedges : (n.setChild i child').children.map (·.plan.edge) = n.children.map (·.plan.edge) := by
    refine List.ext_getElem? fun j => ?_
    rw [List.getElem?_map, List.getElem?_map]
    by_cases hij : i = j
    · subst hij
      rw [setChild, List.getElem?_set_self hi, hc]
      exact congrArg some hg.edge
    · rw [setChild, List.getElem?_set_ne hij]
  refine ⟨⟨.node (h.formed.laid.of_eq rfl rfl) (fun k hk => ?_) ?_ fun k hk => ?_, blank_eq_iff.mpr
    ⟨hp, hcur, hkept, fun k hk => ?_⟩⟩, rfl, rfl, fun _ hf => hf⟩
  · rcases hmem k hk with hk | rfl
    · exact (h.formed.joint hk).imp fun _ hj => hj.of_eq rfl
    · exact (h.formed.joint (List.mem_of_getElem? hc)).imp fun _ hj => (hj.of_grown hg).of_eq rfl
  · have hpair : (n.children.map (·.plan.edge)).Pairwise fun a b =>
        ∀ e f, a = some e → b = some f → e.name ≠ f.name := List.pairwise_map.mpr h.formed.distinct
    rw [← hedges] at hpair
    exact List.pairwise_map.mp hpair
  · exact (hmem k hk).elim h.formed.child fun he => he ▸ hg.fresh.formed
  · exact (hmem k hk).elim (hall k) fun he => he ▸ hg.fresh.blank_eq

/-- A node with one more index. -/
theorem Fresh.grown_indexed (h : n.Fresh) (edge : Navigation) : Grown n (Build.indexed n edge) := by
  have htracks : ∀ field, n.progress.results.Tracks field →
      (n.progress.results.withIndex edge.hostKey).Tracks field := fun field hf =>
    (Collection.tracks_withIndex _ _ _).mpr (.inl hf)
  have hbare := h.bare.withIndex edge.hostKey
  obtain ⟨-, hcur, hkept, hall⟩ := blank_eq_iff.mp h.blank_eq
  refine ⟨⟨.node ⟨?_, hbare.toWellLaid, fun field hf => ?_⟩ (fun child hc => ?_) h.formed.distinct
    fun child hc => h.formed.child hc, blank_eq_iff.mpr ⟨hbare.purge_eq, hcur, hkept, hall⟩⟩, rfl, rfl,
    htracks⟩
  · exact (Collection.origin_withIndex _ _).trans h.formed.laid.origin
  · exact h.formed.laid.key field ((Collection.primaryKey_withIndex _ _).symm.trans hf)
  · obtain ⟨e, hj⟩ := h.formed.joint hc
    exact ⟨e, hj.edge_eq, hj.inner, hj.host.imp id (htracks _), hj.related⟩

/-- A node with one more child, whose edge has a new name. -/
theorem Fresh.grown_append (h : n.Fresh) {child : Node} {edge : Navigation} (hc : child.Fresh)
    (hj : Joint n child edge)
    (hnew : ∀ k ∈ n.children, ∀ e, k.plan.edge = some e → e.name ≠ edge.name) :
    Grown n { n with children := n.children ++ [child] } := by
  obtain ⟨hp, hcur, hkept, hall⟩ := blank_eq_iff.mp h.blank_eq
  have hmem : ∀ k ∈ n.children ++ [child], k ∈ n.children ∨ k = child := fun k hk => by
    simpa using hk
  refine ⟨⟨.node (h.formed.laid.of_eq rfl rfl) (fun k hk => ?_) ?_ fun k hk => ?_, blank_eq_iff.mpr
    ⟨hp, hcur, hkept, fun k hk => ?_⟩⟩, rfl, rfl, fun _ hf => hf⟩
  · rcases hmem k hk with hk | rfl
    · exact (h.formed.joint hk).imp fun _ hj => hj.of_eq rfl
    · exact ⟨edge, hj.of_eq rfl⟩
  · refine List.pairwise_append.mpr ⟨h.formed.distinct, List.pairwise_singleton _ _,
      fun k hk k' hk' e e' he he' => ?_⟩
    rw [List.mem_singleton.mp hk', hj.edge_eq] at he'
    cases he'
    exact hnew k hk e he
  · exact (hmem k hk).elim h.formed.child fun he => he ▸ hc.formed
  · exact (hmem k hk).elim (hall k) fun he => he ▸ hc.blank_eq

end Node

/-! ## Building -/

namespace Build

open Node

variable {α β : Type}

/-- Building keeps what is true of the catalog, and what is built has a property. -/
def Yields (I : Catalog → Prop) (x : Build α) (P : α → Prop) : Prop :=
  ∀ s : State, I s.catalog → I (x s).2.catalog ∧ ∀ a, (x s).1 = .ok a → P a

/-- Lookups keep what is true of a catalog, and the edges that they give have a property. -/
structure Lookups (I : Catalog → Prop) (E : String → Navigation → Prop) : Prop where
  lookup : ∀ (c : Catalog) (key : Catalog.Key) (name : String), I c → I (c.lookup key name).2
  navigation : ∀ (c : Catalog) (name property : String), I c → I (c.navigation name property).2 ∧
    ∀ edge, (c.navigation name property).1 = .ok edge → E property edge

theorem lookups_trivial : Lookups (fun _ => True) fun _ _ => True :=
  ⟨fun _ _ _ _ => trivial, fun _ _ _ _ => ⟨trivial, fun _ _ => trivial⟩⟩

theorem lookups_named : Lookups Catalog.Named fun property edge => edge.name = property :=
  ⟨fun c key name hc entry hm => hc entry (Catalog.edges_lookup c key name ▸ hm),
    fun _ name property hc => hc.navigation name property⟩

variable {I : Catalog → Prop} {E : String → Navigation → Prop}

theorem yields_pure {P : α → Prop} {a : α} (h : P a) : Yields I (pure a : Build α) P :=
  fun _ hs => ⟨hs, fun b hb => by cases hb; exact h⟩

theorem yields_bind {x : Build α} {f : α → Build β} {P : α → Prop} {Q : β → Prop} (hx : Yields I x P)
    (hf : ∀ a, P a → Yields I (f a) Q) : Yields I (x >>= f) Q := by
  intro s hs
  obtain ⟨hn, hp⟩ := hx s hs
  change I (ExceptT.bindCont f (x s).1 (x s).2).2.catalog ∧
    ∀ b, (ExceptT.bindCont f (x s).1 (x s).2).1 = .ok b → Q b
  cases hr : (x s).1 with
  | error e => exact ⟨hn, by rintro _ ⟨⟩⟩
  | ok a => exact hf a (hp a hr) _ hn

theorem Yields.imp {x : Build α} {P Q : α → Prop} (h : Yields I x P) (hpq : ∀ a, P a → Q a) :
    Yields I x Q := fun s hs => ⟨(h s hs).1, fun a ha => hpq a ((h s hs).2 a ha)⟩

theorem Lookups.type (h : Lookups I E) (key : Catalog.Key) (name : String) :
    Yields I (ask (·.lookup key name)) fun _ => True :=
  fun s hs => ⟨h.lookup s.catalog key name hs, fun _ _ => trivial⟩

theorem Lookups.edge (h : Lookups I E) (name property : String) :
    Yields I (ask (·.navigation name property)) (E property) :=
  fun s hs => h.navigation s.catalog name property hs

theorem yields_ofExcept (result : Except Failure α) :
    Yields I (ofExcept result) fun a => result = .ok a := fun _ hs => ⟨hs, fun _ h => h⟩

theorem yields_claim (path resource : String) : Yields I (claim path resource) fun _ => True := by
  intro s hs
  rw [claim]
  split
  · exact ⟨hs, fun _ _ => trivial⟩
  · exact ⟨hs, fun _ _ => trivial⟩

theorem yields_foldlM {l : List β} {f : α → β → Build α} {P : α → Prop} {a : α} (ha : P a)
    (hf : ∀ a, ∀ b ∈ l, P a → Yields I (f a b) P) : Yields I (l.foldlM f a) P := by
  induction l generalizing a with
  | nil => exact yields_pure ha
  | cons b rest ih =>
    rw [List.foldlM_cons]
    exact yields_bind (hf a b (.head _) ha) fun a' ha' => ih ha' fun a b hb => hf a b (.tail _ hb)

/-- A node as it is created. -/
structure Created (above : Option Nat) (via : Option Navigation) (n : Node) : Prop where
  fresh : n.Fresh
  parent : n.plan.parent = above
  edge : n.plan.edge = via
  related : ∀ e, via = some e → e.relatedKey = "" ∨ n.progress.results.Tracks e.relatedKey

theorem yields_newNode (path : String) (parent : Option Nat) (edge : Option Navigation)
    (type : EntityType) : Yields I (newNode path parent edge type) (Created parent edge) := by
  refine yields_bind (yields_claim _ _) fun id _ => yields_bind (yields_ofExcept _) fun key hkey =>
    yields_pure ?_
  let plan : Node.Plan := ⟨id, path, parent, Request.ofEntity type, edge⟩
  let keyed := key.toList.foldl Collection.withPrimaryKey (Collection.empty (some plan.origin))
  obtain ⟨hbare, horigin, hprimary⟩ : keyed.Bare ∧ keyed.origin = some plan.origin ∧
      ∀ field, keyed.primaryKey = some field → key = some field := by
    cases key with
    | none => exact ⟨Collection.bare_empty _, rfl, by rintro _ ⟨⟩⟩
    | some name =>
      refine ⟨(Collection.bare_empty _).withPrimaryKey name, ?_, fun field hf => ?_⟩
      · change (Collection.withPrimaryKey _ name).origin = _
        rw [Collection.withPrimaryKey]
        split <;> rfl
      · change (Collection.withPrimaryKey _ name).primaryKey = _ at hf
        rw [Collection.withPrimaryKey] at hf
        split at hf
        · obtain ⟨⟩ := hf
        · exact hf
  obtain ⟨hb, ho, hk, ht⟩ := hbare.withIndexes (edge.toList.map (·.relatedKey))
  refine ⟨⟨.node ⟨ho.trans horigin, hb.toWellLaid, fun field hf => ?_⟩ (List.forall_mem_nil _) .nil
    (List.forall_mem_nil _), blank_eq_iff.mpr ⟨hb.purge_eq, rfl, rfl, List.forall_mem_nil _⟩⟩, rfl,
    rfl, fun e he => ?_⟩
  · exact hkey.trans (congrArg _ (hprimary field (hk.symm.trans hf)))
  · subst he
    by_cases hempty : e.relatedKey = ""
    · exact .inl hempty
    · exact .inr ((ht _).mpr (.inr ⟨by simp, hempty⟩))

theorem yields_newChild (h : Lookups I E) (n : Node) (property : String) :
    Yields I (newChild n property) fun (edge, child) =>
      E property edge ∧ Created (some n.plan.id) (some edge) child :=
  yields_bind (h.edge _ _) fun _ hedge => yields_bind (h.type .name _) fun _ _ =>
    yields_bind (yields_newNode _ _ _ _) fun _ hchild => yields_pure ⟨hedge, hchild⟩

/-- A change of requests that keeps their entity type. -/
def Retypes (change : Request → Except Failure Request) : Prop :=
  ∀ r r', change r = .ok r' → r'.entity = r.entity

theorem yields_changeAt {change : Request → Except Failure Request} (hc : Retypes change)
    (hops : List String) (n : Node) (h : n.Fresh) :
    Yields Catalog.Named (changeAt change hops n) (Grown n) := by
  induction hops generalizing n with
  | nil =>
    rw [changeAt]
    exact yields_bind (yields_ofExcept _) fun request hr => yields_pure
      (h.grown_request (hc _ _ hr))
  | cons property rest ih =>
    rw [changeAt]
    split
    · rename_i i hi
      split
      · rename_i child hget
        exact yields_bind (ih child (h.child (List.mem_of_getElem? hget))) fun child' hg =>
          yields_pure (h.grown_setChild hget hg)
      · exact yields_pure ⟨h, rfl, rfl, fun _ hf => hf⟩
    · rename_i hnone
      refine yields_bind (yields_newChild lookups_named n property) fun (edge, child) ⟨hname, hcreated⟩ => ?_
      refine yields_bind (ih child hcreated.fresh) fun child' hg => yields_pure ?_
      have hindexed := h.grown_indexed edge
      have hj : Joint (indexed n edge) child' edge := by
        refine Joint.of_grown ⟨hcreated.edge, ?_, ?_, hcreated.related edge rfl⟩ hg
        · rw [isRoot, hcreated.parent]
          rfl
        · by_cases hempty : edge.hostKey = ""
          · exact .inl hempty
          · exact .inr ((Collection.tracks_withIndex _ _ _).mpr (.inr ⟨rfl, hempty⟩))
      refine hindexed.trans (hindexed.fresh.grown_append hg.fresh hj fun k hk e he hne => ?_)
      have := List.findIdx?_eq_none_iff.mp hnone k hk
      rw [reachedBy, he] at this
      simp [hne, hname] at this

theorem retypes_addPredicate (field : String) (op : Filter.Operator) (literal : String) :
    Retypes fun request => request.addPredicate field op literal := by
  intro r r' h
  obtain ⟨condition, -, h⟩ := bind_eq_ok.mp h
  obtain ⟨restriction, -, rfl⟩ := map_eq_ok.mp h
  rfl

theorem retypes_select (field : String) : Retypes fun request => .ok (request.select field) := by
  intro r r' h
  cases h
  rfl

/-- The root of a tree. -/
structure Rooted (n : Node) : Prop where
  fresh : n.Fresh
  parent : n.plan.parent = none
  edge : n.plan.edge = none

theorem yields_tree (resource : String) (predicates : List Filter.Predicate) (selected : List String) :
    Yields Catalog.Named (tree resource predicates selected) Rooted := by
  have hgrown : ∀ {n n'}, Rooted n → Grown n n' → Rooted n' := fun h hg =>
    ⟨hg.fresh, hg.parent.trans h.parent, hg.edge.trans h.edge⟩
  refine yields_bind (lookups_named.type .resource resource) fun type _ => ?_
  refine yields_bind ((yields_newNode _ _ _ _).imp fun n hn => (⟨hn.fresh, hn.parent, hn.edge⟩ : Rooted n))
    fun root hroot => ?_
  refine yields_bind (yields_foldlM hroot fun n p _ hn => ?_) fun root hroot =>
    yields_foldlM hroot fun n path _ hn => ?_
  · exact (yields_changeAt (retypes_addPredicate _ _ _) _ n hn.fresh).imp fun _ hg => hgrown hn hg
  · exact (yields_changeAt (retypes_select _) _ n hn.fresh).imp fun _ hg => hgrown hn hg

end Build

/-- **Every tree that is built** is fresh, and its root has neither parent nor edge. -/
theorem Node.rooted_of_ofQuery? {catalog after : Catalog} (hc : catalog.Reached) {resource : String}
    {predicates : List Filter.Predicate} {selected : List String} {root : Node}
    (h : Node.ofQuery? catalog resource predicates selected = (.ok root, after)) :
    Build.Rooted root := by
  obtain ⟨hr, -⟩ := Prod.mk.inj h
  exact (Build.yields_tree resource predicates selected ⟨catalog, []⟩ hc.named).2 root hr

end PathQuery
