import PathQuery.Proofs.Graph.Build
import PathQuery.Proofs.Metadata.Keys

/-!
# Proofs/Graph/Inherit — properties that building a tree keeps

A property that every node has as it is created, and that is passed on from trees to their children and
back, holds of every tree that is built (`Inherited.tree`).  So a built tree has no cursors, no selected
columns unless some are asked for, indexes at its leaves for the edges to them alone, and the names of keys
at its edges that the catalog gives.
-/

namespace PathQuery

/-! ## Indexes of new nodes -/

/-- The only field with an index, if there is one, is the related key of an edge. -/
def Collection.IndexedFor (c : Collection) (edge : Option Navigation) : Prop :=
  ∀ field ∈ c.indexNames, ∃ e, edge = some e ∧ field = e.relatedKey

/-- A collection that is laid out for a new node has an index for the edge to the node alone. -/
theorem Collection.indexedFor_created (origin : Option Origin) (key : Option String)
    (edge : Option Navigation) : IndexedFor ((edge.toList.map (·.relatedKey)).foldl withIndex
      (key.toList.foldl withPrimaryKey (empty origin))) edge := by
  have hkeyed : (key.toList.foldl withPrimaryKey (empty origin)).indexNames = [] := by
    rcases key with _ | name
    · rfl
    · change (withPrimaryKey _ name).indexNames = []
      rw [withPrimaryKey]
      split <;> rfl
  intro field hf
  rcases edge with _ | e
  · change field ∈ (key.toList.foldl withPrimaryKey (empty origin)).indexNames at hf
    rw [hkeyed] at hf
    obtain ⟨⟩ := hf
  · change field ∈ (withIndex _ e.relatedKey).indexNames at hf
    rw [indexNames_withIndex, hkeyed] at hf
    refine ⟨e, rfl, ?_⟩
    split at hf
    · obtain ⟨⟩ := hf
    · exact List.mem_singleton.mp hf

/-! ## Properties that are passed on -/

namespace Build

open Node

/-- A property that a node has as it is created, and that is passed on from trees to their children and
back; the edges of the trees have a property too. -/
structure Inherited (E : Navigation → Prop) (P : Node → Prop) : Prop where
  created : ∀ (plan : Node.Plan) (results : Collection), plan.request.selected = [] →
    results.IndexedFor plan.edge → (∀ edge, plan.edge = some edge → E edge) →
    P ⟨plan, ⟨results, none, []⟩, []⟩
  child : ∀ n child : Node, P n → child ∈ n.children → P child
  replaced : ∀ (n : Node) (i : Nat) (child : Node), P n → P child → P (n.setChild i child)
  grown : ∀ (n child : Node) (edge : Navigation), P n → P child →
    P { indexed n edge with children := (indexed n edge).children ++ [child] }

/-- A property that a node keeps when its request is changed. -/
def Withstands (change : Request → Except Failure Request) (P : Node → Prop) : Prop :=
  ∀ (n : Node) (request : Request), P n → change n.plan.request = .ok request →
    P { n with plan := { n.plan with request } }

section Inherited

variable {I : Catalog → Prop} {E : Navigation → Prop} {P : Node → Prop} (h : Inherited E P)
include h

theorem Inherited.newNode (path : String) (parent : Option Nat) {edge : Option Navigation}
    (he : ∀ e, edge = some e → E e) (type : EntityType) : Yields I (newNode path parent edge type) P :=
  yields_bind (yields_claim _ _) fun _ _ => yields_bind (yields_ofExcept _) fun key _ =>
    yields_pure (h.created _ _ rfl (Collection.indexedFor_created _ key edge) he)

variable (hl : Lookups I fun _ => E)
include hl

theorem Inherited.newChild (n : Node) (property : String) :
    Yields I (newChild n property) fun made => P made.2 :=
  yields_bind (hl.edge _ _) fun _ hedge => yields_bind (hl.type .name _) fun _ _ =>
    yields_bind (h.newNode _ _ (fun _ he => Option.some.inj he ▸ hedge) _) fun _ hc => yields_pure hc

theorem Inherited.changeAt {change : Request → Except Failure Request} (hchange : Withstands change P)
    (hops : List String) (n : Node) (hn : P n) : Yields I (changeAt change hops n) P := by
  induction hops generalizing n with
  | nil =>
    rw [Build.changeAt]
    exact yields_bind (yields_ofExcept _) fun request hr => yields_pure (hchange n request hn hr)
  | cons property rest ih =>
    rw [Build.changeAt]
    split
    · split
      · rename_i child hget
        exact yields_bind (ih child (h.child n child hn (List.mem_of_getElem? hget))) fun child' hc =>
          yields_pure (h.replaced n _ child' hn hc)
      · exact yields_pure hn
    · exact yields_bind (h.newChild hl n property) fun made hc =>
        yields_bind (ih made.2 hc) fun child hc' => yields_pure (h.grown n child made.1 hn hc')

/-- **A property that is passed on** holds of every tree that is built. -/
theorem Inherited.tree {selected : List String}
    (hp : ∀ field op literal, Withstands (fun request => request.addPredicate field op literal) P)
    (hs : ∀ path ∈ selected,
      Withstands (fun request => .ok (request.select (Filter.PropertyPath.ofText path).field)) P)
    (resource : String) (predicates : List Filter.Predicate) :
    Yields I (tree resource predicates selected) P :=
  yields_bind (hl.type .resource _) fun _ _ =>
    yields_bind (h.newNode _ none (by rintro _ ⟨⟩) _) fun _ hroot =>
      yields_bind (yields_foldlM hroot fun n _ _ hn => h.changeAt hl (hp _ _ _) _ n hn) fun _ hroot =>
        yields_foldlM hroot fun n path hm hn => h.changeAt hl (hs path hm) _ n hn

end Inherited

variable {E : Navigation → Prop} {n : Node} {Q : Node → Prop}

/-- What is true of a node whatever its children are is passed on for all nodes of a tree. -/
theorem inherited_all
    (created : ∀ (plan : Node.Plan) (results : Collection), plan.request.selected = [] →
      results.IndexedFor plan.edge → (∀ edge, plan.edge = some edge → E edge) →
      Q ⟨plan, ⟨results, none, []⟩, []⟩)
    (replaced : ∀ (n : Node) (i : Nat) (child : Node), Q n → Q (n.setChild i child))
    (grown : ∀ (n child : Node) (edge : Navigation), Q n →
      Q { indexed n edge with children := (indexed n edge).children ++ [child] }) :
    Inherited E fun n => ∀ m ∈ n.all, Q m where
  created plan results hs hi he :=
    forall_mem_all.mpr ⟨created plan results hs hi he, List.forall_mem_nil _⟩
  child _ child hn hc := (forall_mem_all.mp hn).2 child hc
  replaced n i child hn hc := forall_mem_all.mpr ⟨replaced n i child (forall_mem_all.mp hn).1, fun k hk =>
    (List.mem_or_eq_of_mem_set hk).elim ((forall_mem_all.mp hn).2 k) fun he => he ▸ hc⟩
  grown n child edge hn hc := forall_mem_all.mpr ⟨grown n child edge (forall_mem_all.mp hn).1, fun k hk =>
    (List.mem_append.mp hk).elim ((forall_mem_all.mp hn).2 k) fun hk => List.mem_singleton.mp hk ▸ hc⟩

theorem withstands_all {change : Request → Except Failure Request} (h : Withstands change Q) :
    Withstands change fun n => ∀ m ∈ n.all, Q m := fun n request hn hr =>
  forall_mem_all.mpr ⟨h n request (forall_mem_all.mp hn).1 hr, (forall_mem_all.mp hn).2⟩

/-- No node of a tree has selected fields. -/
def Unselected (n : Node) : Prop := ∀ m ∈ n.all, m.plan.request.selected = []

theorem Unselected.columns (h : Unselected n) : n.columns = [] := by
  suffices hunder : ∀ outer, n.columnsUnder outer = [] from hunder ""
  induction n using Node.induction with
  | node n ih =>
    intro outer
    obtain ⟨hown, hchildren⟩ := forall_mem_all.mp h
    obtain ⟨plan, progress, children⟩ := n
    rw [columnsUnder, columnsOf_eq, hown, List.map_nil, List.nil_append]
    exact List.flatMap_eq_nil_iff.mpr fun child hc => ih child hc (hchildren child hc) _

theorem inherited_unselected : Inherited E Unselected :=
  inherited_all (fun _ _ hs _ _ => hs) (fun _ _ _ hn => hn) fun _ _ _ hn => hn

theorem withstands_addPredicate (field : String) (op : Filter.Operator) (literal : String) :
    Withstands (fun request => request.addPredicate field op literal) Unselected :=
  withstands_all fun n request hn h => by
    obtain ⟨condition, -, h⟩ := bind_eq_ok.mp h
    obtain ⟨restriction, -, rfl⟩ := map_eq_ok.mp h
    exact hn

/-- Nodes without children have an index for the edge to them alone. -/
def LeafIndexed (n : Node) : Prop :=
  ∀ m ∈ n.all, m.children = [] → m.progress.results.IndexedFor m.plan.edge

theorem inherited_leafIndexed : Inherited E LeafIndexed :=
  inherited_all (fun _ _ _ hi _ _ => hi) (fun n _ _ hn hc => hn (by simpa [setChild] using hc))
    fun _ _ _ _ hc => absurd (List.append_eq_nil_iff.mp hc).2 (List.cons_ne_nil _ _)

theorem withstands_leafIndexed (change : Request → Except Failure Request) :
    Withstands change LeafIndexed := withstands_all fun _ _ hn _ => hn

theorem inherited_idle : Inherited E Idle where
  created _ _ _ _ _ := idle_iff.mpr ⟨rfl, rfl, List.forall_mem_nil _⟩
  child _ _ hn hc := hn.child hc
  replaced _ _ _ hn hc := idle_iff.mpr ⟨hn.cursor, hn.childResults, fun _ hk =>
    (List.mem_or_eq_of_mem_set hk).elim hn.child fun he => he ▸ hc⟩
  grown _ _ _ hn hc := idle_iff.mpr ⟨hn.cursor, hn.childResults, fun _ hk =>
    (List.mem_append.mp hk).elim hn.child fun hk => List.mem_singleton.mp hk ▸ hc⟩

theorem withstands_idle (change : Request → Except Failure Request) : Withstands change Idle :=
  fun _ _ hn _ => idle_iff.mpr ⟨hn.cursor, hn.childResults, fun _ hc => hn.child hc⟩

theorem lookups_namesKeys : Lookups Catalog.NamesKeys fun _ => Navigation.NamesKeys :=
  ⟨fun _ key name hc => (hc.lookup key name).1, fun _ name property hc => hc.navigation name property⟩

theorem inherited_hinged : Inherited Navigation.NamesKeys Hinged :=
  inherited_all (fun _ _ _ _ he => he) (fun _ _ _ hn => hn) fun _ _ _ hn => hn

theorem withstands_hinged (change : Request → Except Failure Request) : Withstands change Hinged :=
  withstands_all fun _ _ hn _ => hn

end Build

/-- A tree that is built from predicates alone has no selected columns. -/
theorem Node.columns_of_ofQuery? {catalog after : Catalog} {resource : String}
    {predicates : List Filter.Predicate} {root : Node}
    (h : Node.ofQuery? catalog resource predicates [] = (.ok root, after)) : root.columns = [] := by
  obtain ⟨hr, -⟩ := Prod.mk.inj h
  have htree : Build.Yields _ (Build.tree resource predicates []) Build.Unselected :=
    Build.inherited_unselected.tree Build.lookups_trivial Build.withstands_addPredicate
      (List.forall_mem_nil _) _ _
  exact ((htree _ trivial).2 root hr).columns

/-- A node that is built without children has an index for the edge to it alone. -/
theorem Node.indexedFor_of_ofQuery? {catalog after : Catalog} {resource : String}
    {predicates : List Filter.Predicate} {selected : List String} {root m : Node}
    (h : Node.ofQuery? catalog resource predicates selected = (.ok root, after)) (hm : m ∈ root.all)
    (hc : m.children = []) : m.progress.results.IndexedFor m.plan.edge := by
  obtain ⟨hr, -⟩ := Prod.mk.inj h
  have htree : Build.Yields _ (Build.tree resource predicates selected) Build.LeafIndexed :=
    Build.inherited_leafIndexed.tree Build.lookups_trivial (fun _ _ _ => Build.withstands_leafIndexed _)
      (fun _ _ => Build.withstands_leafIndexed _) _ _
  exact (htree _ trivial).2 root hr m hm hc

/-- A root that is built without children finds its rows by its primary key alone. -/
theorem Node.indexNames_of_ofQuery? {catalog after : Catalog} {resource : String}
    {predicates : List Filter.Predicate} {selected : List String} {root : Node}
    (h : Node.ofQuery? catalog resource predicates selected = (.ok root, after))
    (he : root.plan.edge = none) (hc : root.children = []) : root.progress.results.indexNames = [] := by
  refine List.eq_nil_iff_forall_not_mem.mpr fun field hf => ?_
  obtain ⟨edge, hedge, -⟩ := Node.indexedFor_of_ofQuery? h (Node.mem_all_self root) hc field hf
  obtain ⟨⟩ := he.symm.trans hedge

/-- A tree that is built has no cursors, whatever the catalog. -/
theorem Node.idle_of_ofQuery? {catalog after : Catalog} {resource : String}
    {predicates : List Filter.Predicate} {selected : List String} {root : Node}
    (h : Node.ofQuery? catalog resource predicates selected = (.ok root, after)) : root.Idle := by
  obtain ⟨hr, -⟩ := Prod.mk.inj h
  have htree : Build.Yields _ (Build.tree resource predicates selected) Idle :=
    Build.inherited_idle.tree Build.lookups_trivial (fun _ _ _ => Build.withstands_idle _)
      (fun _ _ => Build.withstands_idle _) _ _
  exact (htree _ trivial).2 root hr

/-- A tree that is built from metadata without empty names has names for the keys of its edges. -/
theorem Node.hinged_of_ofQuery? {catalog after : Catalog} (hc : catalog.NamesKeys) {resource : String}
    {predicates : List Filter.Predicate} {selected : List String} {root : Node}
    (h : Node.ofQuery? catalog resource predicates selected = (.ok root, after)) : root.Hinged := by
  obtain ⟨hr, -⟩ := Prod.mk.inj h
  have htree : Build.Yields _ (Build.tree resource predicates selected) Node.Hinged :=
    Build.inherited_hinged.tree Build.lookups_namesKeys (fun _ _ _ => Build.withstands_hinged _)
      (fun _ _ => Build.withstands_hinged _) _ _
  exact (htree _ hc).2 root hr

end PathQuery
