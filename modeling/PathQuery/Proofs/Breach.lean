import PathQuery.Proofs.Metadata.Catalog
import PathQuery.Proofs.Store.Cursor

/-!
# Proofs/Breach — failures for which the data are not to blame

A breach is a failure that the library brings about itself: a node is asked for what its state does not
allow, or a collection for an index or an edge that it does not have.  `Safe x P` says that `x` gives what
satisfies `P` or fails for another cause.  Stores and catalogs only fail so.
-/

namespace PathQuery

/-- Whether a failure is a step that the library should not have taken. -/
def Failure.isBreach : Failure → Bool
  | state _ | collection (.undefinedIndex _) | collection .noOwner | collection (.noNavigation _) => true
  | _ => false

/-- What has a property, or fails without a breach. -/
def Safe {α : Type} (x : Except Failure α) (P : α → Prop) : Prop :=
  match x with
  | .ok a => P a
  | .error f => f.isBreach = false

variable {α β : Type} {P : α → Prop} {Q : β → Prop} {x : Except Failure α}

/-! ## Steps that may fail -/

/-- What is safe failed without a breach or has the property. -/
@[elab_as_elim]
theorem Safe.elim {motive : Except Failure α → Prop} (h : Safe x P)
    (error : ∀ f, f.isBreach = false → motive (.error f)) (ok : ∀ a, P a → motive (.ok a)) : motive x := by
  rcases x with f | a
  · exact error f h
  · exact ok a h

theorem Safe.imp {P' : α → Prop} (h : Safe x P) (hp : ∀ a, P a → P' a) : Safe x P' :=
  h.elim (fun _ hf => hf) hp

theorem Safe.trivial (h : Safe x P) : Safe x fun _ => True := h.imp fun _ _ => True.intro

theorem Safe.of_ok {a : α} (h : Safe x P) (hx : x = .ok a) : P a := by
  rw [hx] at h
  exact h

theorem Safe.of_error {f : Failure} (h : Safe x P) (hx : x = .error f) : f.isBreach = false := by
  rw [hx] at h
  exact h

theorem safe_of_eq_ok {a : α} (hx : x = .ok a) (h : P a) : Safe x P := by
  rw [hx]
  exact h

/-- What is safe may be told of its result. -/
theorem Safe.and_eq (h : Safe x P) : Safe x fun a => P a ∧ x = .ok a := by
  exact h.elim (fun _ hf => hf) fun _ ha => ⟨ha, rfl⟩

theorem safe_bind {f : α → Except Failure β} (hx : Safe x P) (hf : ∀ a, P a → Safe (f a) Q) :
    Safe (x >>= f) Q :=
  hx.elim (fun _ hx => hx) hf

theorem safe_bind_of_ok {f : α → Except Failure β} {a : α} (hx : x = .ok a) (hf : Safe (f a) Q) :
    Safe (x >>= f) Q := by
  rw [hx]
  exact hf

theorem safe_map {f : α → β} (hx : Safe x P) (hf : ∀ a, P a → Q (f a)) : Safe (x.map f) Q :=
  hx.elim (fun _ hx => hx) hf

theorem safe_mapError {ε : Type} {f : ε → Failure} (y : Except ε α) (hf : ∀ e, (f e).isBreach = false) :
    Safe (y.mapError f) fun _ => True := by
  rcases y with e | _
  · exact hf e
  · exact True.intro

theorem safe_foldlM {f : α → β → Except Failure α} {l : List β} {a : α} (ha : P a)
    (hf : ∀ a, P a → ∀ b ∈ l, Safe (f a b) P) : Safe (l.foldlM f a) P := by
  induction l generalizing a with
  | nil => exact ha
  | cons b rest ih =>
    rw [List.foldlM_cons]
    exact safe_bind (hf a ha b (.head _)) fun a' ha' => ih ha' fun a ha b hb => hf a ha b (.tail _ hb)

theorem safe_mapM {f : α → Except Failure β} {l : List α} (hf : ∀ a ∈ l, Safe (f a) Q) :
    Safe (l.mapM f) fun bs => ∀ b ∈ bs, Q b := by
  induction l with
  | nil => exact List.forall_mem_nil _
  | cons a rest ih =>
    rw [List.mapM_cons]
    exact safe_bind (hf a (.head _)) fun b hb =>
      safe_bind (ih fun a ha => hf a (.tail _ ha)) fun bs hbs => List.forall_mem_cons.mpr ⟨hb, hbs⟩

/-! ## Stores -/

theorem ContainerName.safe_ofText? (container : String) :
    Safe (ContainerName.ofText? container) fun _ => True := by
  rw [ofText?]
  split
  · split
    · rfl
    · exact True.intro
  · rfl

theorem Store.safe_insert (s : Store) (resource : String) (v : Value) :
    Safe (s.insert resource v) fun _ => True := by
  rw [insert.eq_def]
  split
  · exact True.intro
  · rfl

theorem Store.safe_insertAll (s : Store) (resource : String) (docs : List Value) :
    Safe (s.insertAll resource docs).1 fun _ => True := by
  induction docs generalizing s with
  | nil => exact True.intro
  | cons v rest ih =>
    rw [insertAll]
    exact (s.safe_insert resource v).elim (fun _ hf => hf) fun s _ => safe_map (ih s) fun _ _ => True.intro

theorem Store.safe_insertFields (s : Store) (resources : List (String × Value)) :
    Safe (s.insertFields resources).1 fun _ => True := by
  induction resources generalizing s with
  | nil => exact True.intro
  | cons field rest ih =>
    obtain ⟨resource, v⟩ := field
    rw [insertFields.eq_def]
    split
    · exact True.intro
    · rename_i docs _ h
      obtain ⟨⟨rfl, rfl⟩, rfl⟩ := List.cons.inj h |>.imp_left Prod.mk.inj
      have hdocs := s.safe_insertAll resource docs
      generalize s.insertAll resource docs = inserted at hdocs ⊢
      obtain ⟨_ | _, s⟩ := inserted
      · exact hdocs
      · exact safe_map (ih s) fun _ _ => True.intro
    · rfl

theorem Store.safe_ofValue? (v : Value) : Safe (Store.ofValue? v) fun _ => True := by
  rw [ofValue?.eq_def]
  split
  · rename_i resources
    have h := (empty .memory).safe_insertFields resources
    generalize (empty .memory).insertFields resources = inserted at h ⊢
    obtain ⟨_ | _, _⟩ := inserted
    · exact h
    · exact True.intro
  · rfl

namespace Registry

variable (r : Registry) (request : Request)

theorem safe_opening? (container : String) : Safe (r.opening? container) fun _ => True := by
  refine safe_bind (ContainerName.safe_ofText? container) fun name _ => ?_
  split
  · rfl
  · split
    · exact True.intro
    · split
      · exact True.intro
      · split
        · exact True.intro
        · rfl
    · rfl

theorem safe_load (path : String) : Safe (r.load path) fun _ => True := by
  rw [load]
  split
  · rfl
  · split
    · rfl
    · exact Store.safe_ofValue? _

theorem safe_create (container : String) : Safe (r.create container).1 fun _ => True := by
  rw [create]
  refine (r.safe_opening? container).elim (fun _ hf => hf) fun opening _ => ?_
  rcases opening with _ | path | path
  · exact True.intro
  · exact safe_map (r.safe_load path) fun _ _ => True.intro
  · exact safe_map (safe_mapError _ fun _ => rfl) fun _ _ => True.intro

/-- A container has a store, or it is its description that is to blame. -/
theorem safe_store (container : String) : Safe (r.store container) fun _ => True := by
  rw [store]
  split
  · exact True.intro
  · exact safe_map (r.safe_create container) fun _ _ => True.intro

theorem safe_storeFor : Safe (r.storeFor request) fun _ => True := by
  rw [storeFor]
  split
  · exact r.safe_store _
  · rfl

theorem safe_fetchOne : Safe (r.fetchOne request) fun _ => True :=
  safe_bind (r.safe_storeFor request) fun s _ => safe_of_eq_ok (s.fetchOne_eq request) True.intro

/-- A cursor over a resource gives some documents. -/
theorem safe_fetchBatches (batchSize : Nat) :
    Safe (r.fetchBatches request batchSize) fun b => ∃ docs, b.cursor.Gives docs := by
  have hs := r.safe_storeFor request
  rcases hstore : r.storeFor request with f | s
  · rw [fetchBatches, fetch, hstore]
    exact hs.of_error hstore
  · have hdocs : r.documentsFor request = .ok (s.documents request.resource) := by
      rw [documentsFor, hstore]
      rfl
    obtain ⟨b, hb, -, -, -, hg⟩ := fetchBatches_of_documentsFor hdocs batchSize
    exact safe_of_eq_ok hb ⟨_, hg⟩

end Registry

/-! ## Entity types and requests -/

theorem EntityType.safe_primaryKey (type : EntityType) : Safe type.primaryKey fun _ => True := by
  rw [primaryKey]
  split
  · exact True.intro
  · exact True.intro
  · rfl

theorem EntityType.safe_dataTypeName (type : EntityType) (field : String) :
    Safe (type.dataTypeName field) fun _ => True := by
  rw [dataTypeName]
  split
  · rfl
  · split
    · exact True.intro
    · rfl
    · rfl

theorem DataType.safe_coerce (type : DataType) (field raw : String) :
    Safe (type.coerce field raw) fun _ => True := by
  rw [coerce]
  split
  · exact True.intro
  · rfl

theorem Request.safe_conditionOf (r : Request) (field : String) (op : Filter.Operator)
    (literal : String) : Safe (r.conditionOf field op literal) fun _ => True := by
  refine safe_bind (r.entity.safe_dataTypeName field) fun name _ => ?_
  split
  · rfl
  · split
    · split
      · exact True.intro
      · rfl
    · exact safe_bind (DataType.safe_coerce _ _ _) fun _ _ => True.intro

/-- A predicate makes a condition at the end of those that are there. -/
theorem Request.safe_addPredicate (r : Request) (field : String) (op : Filter.Operator)
    (literal : String) : Safe (r.addPredicate field op literal) fun r' =>
      ∃ c, r.conditionOf field op literal = .ok c ∧ r' = { r with restriction := r.restriction.push field c } := by
  refine safe_bind (r.safe_conditionOf field op literal).and_eq fun c hc => ?_
  rw [addCondition, Restriction.insert]
  split
  · rfl
  · exact ⟨c, hc.2, rfl⟩

/-! ## Catalogs -/

namespace Catalog

variable (c : Catalog)

theorem safe_find? (field name : String) : Safe (c.find? field name) fun _ => True := by
  refine safe_bind (c.registry.safe_fetchOne _) fun found _ => ?_
  split
  · exact True.intro
  · exact safe_bind (safe_mapError _ fun _ => rfl) fun _ _ => True.intro

theorem safe_lookup (key : Key) (name : String) : Safe (c.lookup key name).1 fun _ => True := by
  rw [lookup_eq]
  split
  · exact True.intro
  · rw [fetch]
    refine (c.safe_find? key.field name).elim (fun _ hf => hf) fun found _ => ?_
    rcases found with _ | type
    · exact rfl
    · exact True.intro

theorem safe_onlyKey (entity property list : String) (keys : List String) :
    Safe (onlyKey entity property list keys) fun _ => True := by
  rw [onlyKey.eq_def]
  split
  · exact True.intro
  · rfl
  · rfl

theorem safe_scalarEdge (name property : String) (definition : NavigationDefinition)
    (related : String) : Safe (c.scalarEdge name property definition related).1 fun _ => True := by
  have hend := c.safe_lookup .name related
  rw [lookup] at hend
  rw [scalarEdge]
  refine (safe_onlyKey name property "foreignKeyNames" definition.foreignKeyNames).elim (fun _ hf => hf)
    fun hostKey _ => ?_
  dsimp only
  generalize c.entity related = found at hend ⊢
  obtain ⟨_ | type, c'⟩ := found
  · exact hend
  · dsimp only
    refine type.safe_primaryKey.elim (fun _ hf => hf) fun key _ => ?_
    rcases key with _ | relatedKey
    · exact rfl
    · exact True.intro

theorem safe_collectionEdge (host : EntityType) (name property : String)
    (definition : NavigationDefinition) (related : String) :
    Safe (collectionEdge host name property definition related) fun _ => True := by
  refine safe_bind (safe_onlyKey _ _ _ _) fun relatedKey _ =>
    safe_bind host.safe_primaryKey fun key _ => ?_
  split
  · rfl
  · exact True.intro

theorem safe_resolve (name property : String) : Safe (c.resolve name property).1 fun _ => True := by
  have hhost := c.safe_lookup .name name
  rw [lookup] at hhost
  rw [resolve]
  generalize c.entity name = found at hhost ⊢
  obtain ⟨_ | host, c'⟩ := found
  · exact hhost
  · dsimp only
    split
    · rfl
    · split
      · rfl
      · split
        · exact c'.safe_scalarEdge _ _ _ _
        · exact safe_collectionEdge _ _ _ _ _

/-- What a catalog does not know is missing in its documents. -/
theorem safe_navigation (name property : String) : Safe (c.navigation name property).1 fun _ => True := by
  rcases he : c.edge? name property with _ | edge
  · rw [(navigation_of_none he).1]
    exact c.safe_resolve name property
  · rw [navigation_of_edge? he]
    exact True.intro

end Catalog

end PathQuery
