import PathQuery.Proofs.Breach
import PathQuery.Proofs.Graph.Build
import PathQuery.Proofs.Graph.Paths

/-!
# Proofs/Graph/Shape — the shape of the tree for what is asked of it

Each predicate and each selected path asks for a change of the request at the end of its hops.  The tree for
some asks has a node for each prefix of their hops, in the order of first appearance, whose request was
changed as they ask (`Shaped`).  One more ask adds the nodes that are missing at paths that are free, and
no other nodes (`builds_changeAt`); so a query has the tree for all that it asks (`builds_tree`).
-/

namespace PathQuery

namespace Build

open PathQuery.Filter (Predicate PropertyPath)

/-! ## What is asked for -/

/-- A change that is asked of the request at the end of some hops. -/
structure Ask where
  hops : List String
  change : Request → Except Failure Request

namespace Ask

/-- The hops of some asks. -/
def hopss (asks : List Ask) : List (List String) := asks.map (·.hops)

/-- The asks behind a first hop. -/
def behind (hop : String) (asks : List Ask) : List Ask :=
  asks.filterMap fun a =>
    match a.hops with
    | [] => none
    | first :: rest => if first = hop then some ⟨rest, a.change⟩ else none

/-- The first hops of some asks. -/
def firstHops (asks : List Ask) : List String := asks.filterMap (·.hops.head?)

/-- The changes that are asked for at the end of some hops. -/
def changesAt (hops : List String) (asks : List Ask) : List (Request → Except Failure Request) :=
  (asks.filter (·.hops == hops)).map (·.change)

variable {asks : List Ask} {a : Ask} {hop : String} {rest : List String}

theorem hopss_concat (asks : List Ask) (a : Ask) : hopss (asks ++ [a]) = hopss asks ++ [a.hops] := by
  rw [hopss, List.map_append]
  rfl

theorem behind_concat_self (asks : List Ask) (hop : String) (rest : List String)
    (change : Request → Except Failure Request) :
    behind hop (asks ++ [⟨hop :: rest, change⟩]) = behind hop asks ++ [⟨rest, change⟩] := by
  simp [behind, List.filterMap_append]

theorem behind_concat_of_ne (asks : List Ask) (h : a.hops.head? ≠ some hop) :
    behind hop (asks ++ [a]) = behind hop asks := by
  obtain ⟨hops, change⟩ := a
  rcases hops with _ | ⟨first, rest⟩
  · simp [behind, List.filterMap_append]
  · have hne : first ≠ hop := fun he => h (congrArg some he)
    simp [behind, List.filterMap_append, hne]

theorem firstHops_concat (asks : List Ask) (a : Ask) :
    firstHops (asks ++ [a]) = firstHops asks ++ a.hops.head?.toList := by
  rw [firstHops, List.filterMap_append]
  rcases hhead : a.hops.head? with _ | hop <;> simp [hhead, firstHops]

theorem mem_firstHops : hop ∈ firstHops asks ↔ ∃ a ∈ asks, a.hops.head? = some hop := List.mem_filterMap

/-- A prefix of the hops behind a first hop, which is thereby one of the first hops. -/
theorem cons_mem_prefixes : hop :: rest ∈ prefixes (hopss asks) ↔
    hop ∈ firstHops asks ∧ rest ∈ prefixes (hopss (behind hop asks)) := by
  rw [mem_prefixes, mem_prefixes, mem_firstHops]
  simp only [hopss, List.mem_map, exists_exists_and_eq_and]
  constructor
  · rintro (h | ⟨a, ha, more, hmore⟩)
    · obtain ⟨⟩ := h
    · refine ⟨⟨a, ha, by rw [← hmore]; rfl⟩, .inr ⟨⟨rest ++ more, a.change⟩, ?_, more, rfl⟩⟩
      refine List.mem_filterMap.mpr ⟨a, ha, ?_⟩
      rw [← hmore]
      exact if_pos rfl
  · rintro ⟨⟨a, ha, hhead⟩, rfl | ⟨b, hb, more, hmore⟩⟩
    · refine .inr ⟨a, ha, a.hops.tail, ?_⟩
      exact (List.eq_cons_of_mem_head? (Option.mem_def.mpr hhead)).symm
    · obtain ⟨a, ha, hab⟩ := List.mem_filterMap.mp hb
      refine .inr ⟨a, ha, more, ?_⟩
      split at hab
      · obtain ⟨⟩ := hab
      · rename_i first behind hhops
        split at hab
        · rename_i he
          cases hab
          rw [hhops, he, List.cons_append, hmore]
        · obtain ⟨⟩ := hab

theorem behind_eq_nil (h : hop ∉ firstHops asks) : behind hop asks = [] := by
  refine List.filterMap_eq_nil_iff.mpr fun a ha => ?_
  split
  · rfl
  · rename_i first rest hhops
    refine if_neg fun he => h (mem_firstHops.mpr ⟨a, ha, ?_⟩)
    rw [hhops, he]
    rfl

theorem changesAt_cons (hop : String) (rest : List String) (asks : List Ask) :
    changesAt (hop :: rest) asks = changesAt rest (behind hop asks) := by
  induction asks with
  | nil => rfl
  | cons a asks ih =>
    obtain ⟨hops, change⟩ := a
    rw [changesAt, changesAt] at ih
    rcases hops with _ | ⟨first, hops⟩
    · simpa [changesAt, behind] using ih
    · by_cases hf : first = hop
      · by_cases hr : hops = rest
        · simpa [changesAt, behind, hf, hr] using ih
        · simpa [changesAt, behind, hf, hr] using ih
      · simpa [changesAt, behind, hf] using ih

theorem changesAt_concat_nil (asks : List Ask) (change : Request → Except Failure Request) :
    changesAt [] (asks ++ [⟨[], change⟩]) = changesAt [] asks ++ [change] := by
  simp [changesAt]

theorem changesAt_concat_cons (asks : List Ask) (hop : String) (rest : List String)
    (change : Request → Except Failure Request) :
    changesAt [] (asks ++ [⟨hop :: rest, change⟩]) = changesAt [] asks := by
  simp [changesAt]

end Ask

/-- A request after some changes. -/
def applyAll (changes : List (Request → Except Failure Request)) (r : Request) :
    Except Failure Request :=
  changes.foldlM (fun r change => change r) r

/-! ## Trees for some asks -/

/-- The node at a path for some asks, which has its number in a list of paths. -/
structure Placed (paths : List String) (parent : Option Nat) (path : String) (asks : List Ask) (n : Node) :
    Prop where
  parent_eq : n.plan.parent = parent
  path_eq : n.plan.path = path
  id : paths[n.plan.id]? = some path
  request : applyAll (Ask.changesAt [] asks) (.ofEntity n.plan.request.entity) = .ok n.plan.request
  edged : ∀ child ∈ n.children, child.plan.edge = some child.edge
  names : n.children.map (·.edge.name) = (Ask.firstHops asks).eraseDups
  ascending : (n.plan.id :: n.children.map (·.plan.id)).Pairwise (· < ·)

/-- The tree at a path for some asks. -/
inductive Shaped (paths : List String) : Option Nat → String → List Ask → Node → Prop where
  | node {parent : Option Nat} {path : String} {asks : List Ask} {n : Node}
    (own : Placed paths parent path asks n)
    (child : ∀ child ∈ n.children, Shaped paths (some n.plan.id) s!"{path}/{child.edge.name}"
      (Ask.behind child.edge.name asks) child) :
    Shaped paths parent path asks n

variable {paths : List String} {parent : Option Nat} {path : String} {asks : List Ask} {n : Node}

theorem Shaped.own (h : Shaped paths parent path asks n) : Placed paths parent path asks n := by
  obtain @⟨_, _, _, _, hown, -⟩ := h
  exact hown

theorem Shaped.child (h : Shaped paths parent path asks n) {child : Node} (hc : child ∈ n.children) :
    Shaped paths (some n.plan.id) s!"{path}/{child.edge.name}" (Ask.behind child.edge.name asks) child := by
  obtain @⟨_, _, _, _, -, hchild⟩ := h
  exact hchild child hc

theorem Placed.id_lt (h : Placed paths parent path asks n) : n.plan.id < paths.length :=
  (List.getElem?_eq_some_iff.mp h.id).1

theorem Placed.nodup_names (h : Placed paths parent path asks n) :
    (n.children.map (·.edge.name)).Nodup := by
  rw [h.names]
  exact nodup_eraseDups _

theorem Placed.mem_names (h : Placed paths parent path asks n) {name : String} :
    (∃ child ∈ n.children, child.edge.name = name) ↔ name ∈ Ask.firstHops asks := by
  rw [← List.mem_eraseDups, ← h.names, List.mem_map]

theorem Placed.mono (h : Placed paths parent path asks n) (more : List String) :
    Placed (paths ++ more) parent path asks n :=
  { h with id := by rw [List.getElem?_append_left h.id_lt, h.id] }

theorem Shaped.mono (h : Shaped paths parent path asks n) (more : List String) :
    Shaped (paths ++ more) parent path asks n := by
  induction h with
  | node own _ ih => exact .node (own.mono more) ih

theorem reachedBy_iff {child : Node} {property : String} (h : child.plan.edge = some child.edge) :
    reachedBy property child = true ↔ child.edge.name = property := by
  rw [reachedBy, h, Option.any_some, beq_iff_eq]

/-! ## Building, with what it does to the paths -/

variable {α β : Type} {s : State} {P : α → State → Prop} {Q : β → State → Prop}

/-- Building from a state gives something with a property, or fails without a breach. -/
def Builds (x : Build α) (s : State) (P : α → State → Prop) : Prop :=
  match x s with
  | (.ok a, s') => P a s'
  | (.error f, _) => f.isBreach = false

theorem builds_pure {a : α} (h : P a s) : Builds (pure a : Build α) s P := h

theorem builds_bind {x : Build α} {f : α → Build β} (hx : Builds x s P)
    (hf : ∀ a s', P a s' → Builds (f a) s' Q) : Builds (x >>= f) s Q := by
  rw [Builds] at hx ⊢
  change match ExceptT.bindCont f (x s).1 (x s).2 with
    | (.ok b, s') => Q b s'
    | (.error f, _) => f.isBreach = false
  generalize x s = built at hx ⊢
  obtain ⟨_ | a, s'⟩ := built
  · exact hx
  · exact hf a s' hx

theorem Builds.imp {x : Build α} {P' : α → State → Prop} (h : Builds x s P)
    (hp : ∀ a s', P a s' → P' a s') : Builds x s P' := by
  rw [Builds] at h ⊢
  generalize x s = built at h ⊢
  obtain ⟨_ | a, s'⟩ := built
  · exact h
  · exact hp a s' h

theorem builds_ask {lookup : Catalog → Except Failure α × Catalog} {R : α → Prop}
    (hl : Safe (lookup s.catalog).1 R)
    (h : ∀ a, R a → P a { s with catalog := (lookup s.catalog).2 }) : Builds (ask lookup) s P := by
  rw [Builds, ask]
  generalize lookup s.catalog = found at hl h ⊢
  obtain ⟨_ | a, catalog⟩ := found
  · exact hl
  · exact h a hl

theorem builds_ofExcept {result : Except Failure α} (h : Safe result fun a => P a s) :
    Builds (ofExcept result) s P := by
  rw [Builds, ofExcept]
  exact h.elim (fun _ hf => hf) fun _ ha => ha

/-- A path that has no node is claimed. -/
theorem builds_claim {resource : String} (h : path ∉ s.paths) : Builds (claim path resource) s
    fun id s' => id = s.paths.length ∧ s' = { s with paths := s.paths ++ [path] } := by
  rw [Builds, claim, if_neg h]
  exact ⟨rfl, rfl⟩

theorem builds_newNode {edge : Option Navigation} {type : EntityType} (h : path ∉ s.paths) :
    Builds (newNode path parent edge type) s fun n s' =>
      n.plan = ⟨s.paths.length, path, parent, .ofEntity type, edge⟩ ∧ n.children = [] ∧
        s' = { s with paths := s.paths ++ [path] } := by
  refine builds_bind (builds_claim h) fun id s' hclaimed => ?_
  obtain ⟨hid, hs'⟩ := hclaimed
  refine builds_bind (P := fun _ s'' => s'' = s')
    (builds_ofExcept ((EntityType.safe_primaryKey type).imp fun _ _ => rfl)) fun key s'' hs'' => ?_
  exact builds_pure ⟨by rw [hid], rfl, hs''.trans hs'⟩

/-- A node that was just created is the tree for no asks. -/
theorem shaped_of_new {edge : Option Navigation} {type : EntityType}
    (hplan : n.plan = ⟨paths.length, path, parent, .ofEntity type, edge⟩) (hleaf : n.children = []) :
    Shaped (paths ++ [path]) parent path [] n := by
  refine .node ⟨by rw [hplan], by rw [hplan], ?_, by rw [hplan]; rfl, ?_, ?_, ?_⟩ ?_
  · rw [hplan, List.getElem?_append_right (Nat.le_refl _), Nat.sub_self]
    rfl
  all_goals rw [hleaf]
  · exact List.forall_mem_nil _
  · rfl
  · exact List.pairwise_singleton _ _
  · exact List.forall_mem_nil _

/-- A new child is at the end of an edge with the name that was asked for. -/
theorem builds_newChild {property : String} (hs : s.catalog.Named)
    (h : s!"{n.plan.path}/{property}" ∉ s.paths) :
    Builds (newChild n property) s fun (edge, child) s' =>
      s'.catalog.Named ∧ s'.paths = s.paths ++ [s!"{n.plan.path}/{property}"] ∧
        edge.name = property ∧ child.plan.edge = some edge ∧ child.plan.id = s.paths.length ∧
        Shaped s'.paths (some n.plan.id) s!"{n.plan.path}/{property}" [] child := by
  obtain ⟨hnamed, hname⟩ := hs.navigation n.plan.request.entity.name property
  refine builds_bind (P := fun edge s' => s'.catalog.Named ∧ s'.paths = s.paths ∧ edge.name = property)
    (builds_ask (s.catalog.safe_navigation _ _).and_eq fun edge he => ⟨hnamed, rfl, hname edge he.2⟩) ?_
  rintro edge s₁ ⟨hs₁, hp₁, hedge⟩
  refine builds_bind (P := fun _ s' => s'.catalog.Named ∧ s'.paths = s.paths)
    (builds_ask (s₁.catalog.safe_lookup .name _) fun type _ => ⟨?_, hp₁⟩) ?_
  · intro entry hentry
    exact hs₁ entry (Catalog.edges_entity s₁.catalog edge.relatedEntity ▸ hentry)
  · rintro type s₂ ⟨hs₂, hp₂⟩
    rw [← hp₂] at h
    refine builds_bind (builds_newNode h) fun child s₃ hnew => builds_pure ?_
    obtain ⟨hplan, hleaf, hs₃⟩ := hnew
    rw [hs₃, hp₂] at *
    exact ⟨hs₂, rfl, hedge, by rw [hplan], by rw [hplan, hp₂], shaped_of_new hplan hleaf⟩

/-! ## One more ask -/

/-- A change of a node's own request. -/
theorem Shaped.change {change : Request → Except Failure Request} {r : Request}
    (h : Shaped paths parent path asks n) (hr : change n.plan.request = .ok r)
    (he : r.entity = n.plan.request.entity) :
    Shaped paths parent path (asks ++ [⟨[], change⟩]) { n with plan := { n.plan with request := r } } := by
  have hown := h.own
  refine .node { hown with request := ?_, names := ?_ } fun child hc => ?_
  · change applyAll _ (.ofEntity r.entity) = .ok r
    rw [Ask.changesAt_concat_nil, applyAll, List.foldlM_append, he]
    exact bind_eq_ok.mpr ⟨_, hown.request, by rw [List.foldlM_cons, hr]; rfl⟩
  · rw [Ask.firstHops_concat]
    exact hown.names.trans (congrArg _ (List.append_nil _).symm)
  · rw [Ask.behind_concat_of_ne asks (by simp)]
    exact h.child hc

/-- An index more. -/
theorem Shaped.indexed (h : Shaped paths parent path asks n) (edge : Navigation) :
    Shaped paths parent path asks (Build.indexed n edge) :=
  .node { h.own with } fun _ hc => h.child hc

/-- A change behind the edge to a child. -/
theorem Shaped.setChild {child child' : Node} {i : Nat} {rest more : List String}
    {change : Request → Except Failure Request} (h : Shaped paths parent path asks n)
    (hc : n.children[i]? = some child)
    (hplan : child'.plan = { child.plan with request := child'.plan.request })
    (h' : Shaped (paths ++ more) (some n.plan.id) s!"{path}/{child.edge.name}"
      (Ask.behind child.edge.name asks ++ [⟨rest, change⟩]) child') :
    Shaped (paths ++ more) parent path (asks ++ [⟨child.edge.name :: rest, change⟩])
      (n.setChild i child') := by
  have hown := h.own
  have hi := (List.getElem?_eq_some_iff.mp hc).1
  have hedge : child'.edge = child.edge := by rw [Node.edge, Node.edge, hplan]
  have hmap : ∀ {γ : Type} (f : Node → γ), f child' = f child →
      (n.setChild i child').children.map f = n.children.map f := fun {γ} f hf => by
    ext1 j
    rw [List.getElem?_map, List.getElem?_map, Node.setChild, List.getElem?_set]
    split
    · rename_i hij
      rw [← hij, hc]
      exact congrArg some hf
    · rfl
  have hmem : child.edge.name ∈ Ask.firstHops asks :=
    hown.mem_names.mp ⟨child, List.mem_of_getElem? hc, rfl⟩
  refine .node { hown.mono more with request := ?_, edged := fun k hk => ?_, names := ?_, ascending := ?_ }
    fun k hk => ?_
  · rw [Ask.changesAt_concat_cons]
    exact hown.request
  · rcases List.mem_or_eq_of_mem_set hk with hk | rfl
    · exact hown.edged k hk
    · rw [hedge, ← hown.edged child (List.mem_of_getElem? hc), hplan]
  · rw [Ask.firstHops_concat, hmap (·.edge.name) (congrArg _ hedge), hown.names]
    exact ((eraseDups_concat _ _).trans (by rw [if_pos hmem, List.append_nil])).symm
  · rw [hmap (·.plan.id) (by rw [hplan])]
    exact hown.ascending
  · obtain ⟨j, hj⟩ := List.mem_iff_getElem?.mp hk
    rw [Node.setChild, List.getElem?_set] at hj
    split at hj
    · obtain rfl := Option.some.inj hj
      rw [hedge, Ask.behind_concat_self]
      exact h'
    · -- another child stands behind another name
      rename_i hij
      rw [Ask.behind_concat_of_ne asks fun he => hij ?_]
      · exact (h.mono more).child (List.mem_of_getElem? hj)
      · refine (List.getElem?_inj (by simpa using hi) hown.nodup_names).mp ?_
        rw [List.getElem?_map, List.getElem?_map, hc, hj]
        exact he

/-- A new child behind a new edge. -/
theorem Shaped.addChild {child : Node} {rest more : List String}
    {change : Request → Except Failure Request} (h : Shaped paths parent path asks n)
    (hnew : child.edge.name ∉ Ask.firstHops asks) (hedge : child.plan.edge = some child.edge)
    (hid : child.plan.id = paths.length)
    (h' : Shaped (paths ++ more) (some n.plan.id) s!"{path}/{child.edge.name}" [⟨rest, change⟩] child) :
    Shaped (paths ++ more) parent path (asks ++ [⟨child.edge.name :: rest, change⟩])
      { n with children := n.children ++ [child] } := by
  have hown := h.own
  refine .node { hown.mono more with request := ?_, edged := fun k hk => ?_, names := ?_, ascending := ?_ }
    fun k hk => ?_
  · rw [Ask.changesAt_concat_cons]
    exact hown.request
  · rcases List.mem_append.mp hk with hk | hk
    · exact hown.edged k hk
    · exact List.mem_singleton.mp hk ▸ hedge
  · rw [Ask.firstHops_concat, List.map_append, hown.names]
    exact ((eraseDups_concat _ _).trans (by rw [if_neg hnew]; rfl)).symm
  · rw [List.map_append, ← List.cons_append]
    refine List.pairwise_append.mpr ⟨hown.ascending, List.pairwise_singleton _ _, fun a ha b hb => ?_⟩
    rw [List.mem_singleton.mp hb]
    change a < child.plan.id
    rw [hid]
    rcases List.mem_cons.mp ha with rfl | ha
    · exact hown.id_lt
    · obtain ⟨k, hk, rfl⟩ := List.mem_map.mp ha
      exact (h.child hk).own.id_lt
  · rcases List.mem_append.mp hk with hk | hk
    · rw [Ask.behind_concat_of_ne asks fun he => hnew ?_]
      · exact (h.mono more).child hk
      · exact hown.mem_names.mp ⟨k, hk, (Option.some.inj he).symm⟩
    · rw [List.mem_singleton.mp hk, Ask.behind_concat_self, Ask.behind_eq_nil hnew]
      exact h'

/-! ## Paths without a node -/

/-- The prefixes behind a child are those behind the name of its edge. -/
theorem Placed.mem_prefixes_behind {child : Node} (h : Placed paths parent path asks n)
    (hc : child ∈ n.children) (hops : List String) :
    child.edge.name :: hops ∈ prefixes (Ask.hopss asks) ↔
      hops ∈ prefixes (Ask.hopss (Ask.behind child.edge.name asks)) :=
  Ask.cons_mem_prefixes.trans (and_iff_right (h.mem_names.mp ⟨child, hc, rfl⟩))

/-- Below a path there are nodes only for what was asked for. -/
def Covers (paths : List String) (path : String) (asks : List Ask) : Prop :=
  ∀ hops, SlashFree hops → pathAfter path hops ∈ paths → hops ∈ prefixes (Ask.hopss asks)

variable {hop : String}

theorem Covers.child {child : Node} (h : Covers paths path asks) (hn : Placed paths parent path asks n)
    (hc : child ∈ n.children) (hname : '/' ∉ child.edge.name.toList) :
    Covers paths s!"{path}/{child.edge.name}" (Ask.behind child.edge.name asks) := fun hops hh hin =>
  (hn.mem_prefixes_behind hc hops).mp (h _ (slashFree_cons.mpr ⟨hname, hh⟩) hin)

theorem Covers.not_mem (h : Covers paths path asks) (hhop : '/' ∉ hop.toList)
    (hnew : hop ∉ Ask.firstHops asks) {hops : List String} (hh : SlashFree hops) :
    pathAfter path (hop :: hops) ∉ paths := fun hin =>
  hnew (Ask.cons_mem_prefixes.mp (h _ (slashFree_cons.mpr ⟨hhop, hh⟩) hin)).1

/-- Below a path that was just claimed there are no nodes. -/
theorem Covers.claimed (h : Covers paths path asks) (hhop : '/' ∉ hop.toList)
    (hnew : hop ∉ Ask.firstHops asks) : Covers (paths ++ [s!"{path}/{hop}"]) s!"{path}/{hop}" [] := by
  intro hops hh hin
  rcases List.mem_append.mp hin with hin | hin
  · exact absurd hin (h.not_mem hhop hnew hh)
  · exact mem_prefixes.mpr (.inl (pathAfter_inj hh (List.forall_mem_nil _) (List.mem_singleton.mp hin)))

/-! ## What one more ask adds -/

/-- What a tree for some asks becomes when one more is asked for. -/
structure Grew (s : State) (parent : Option Nat) (path : String) (asks : List Ask) (a : Ask) (n n' : Node)
    (s' : State) : Prop where
  named : s'.catalog.Named
  paths_eq : s'.paths = s.paths ++
    (a.hops.inits.removeAll (prefixes (Ask.hopss asks))).map (pathAfter path)
  plan_eq : n'.plan = { n.plan with request := n'.plan.request }
  shaped : Shaped s'.paths parent path (asks ++ [a]) n'

variable {s' : State} {child child' : Node} {rest : List String} {change : Request → Except Failure Request}

/-- What is asked of the node itself adds no node. -/
theorem builds_change (hchange : ∀ r, Safe (change r) fun r' => r'.entity = r.entity)
    (hn : Shaped s.paths parent path asks n) (hs : s.catalog.Named) :
    Builds (changeAt change [] n) s (Grew s parent path asks ⟨[], change⟩ n) := by
  have hnil : [([] : List String)].removeAll (prefixes (Ask.hopss asks)) = [] :=
    List.filter_eq_nil_iff.mpr fun hops hh => by
      rw [List.mem_singleton.mp hh, List.elem_iff.mpr (mem_prefixes.mpr (.inl rfl))]
      exact Bool.false_ne_true
  rw [changeAt]
  refine builds_bind (P := fun r s' => s' = s ∧ r.entity = n.plan.request.entity ∧
      change n.plan.request = .ok r)
    (builds_ofExcept ((hchange _).and_eq.imp fun r hr => ⟨rfl, hr⟩)) fun r s' hchanged => ?_
  obtain ⟨hs', hentity, hr⟩ := hchanged
  subst s'
  refine builds_pure ⟨hs, ?_, rfl, hn.change hr hentity⟩
  change s.paths = s.paths ++ ([[]].removeAll _).map _
  rw [hnil, List.map_nil, List.append_nil]

/-- A node grows when one of its children does. -/
theorem Grew.setChild {i : Nat} (hn : Shaped s.paths parent path asks n)
    (hc : n.children[i]? = some child)
    (hg : Grew s (some n.plan.id) s!"{path}/{child.edge.name}" (Ask.behind child.edge.name asks)
      ⟨rest, change⟩ child child' s') :
    Grew s parent path asks ⟨child.edge.name :: rest, change⟩ n (n.setChild i child') s' := by
  refine ⟨hg.named, ?_, rfl, ?_⟩
  · rw [hg.paths_eq, removeAll_inits_cons (hn.own.mem_prefixes_behind (List.mem_of_getElem? hc)),
      List.map_map]
    rfl
  · have h' := hg.shaped
    rw [hg.paths_eq] at h' ⊢
    exact hn.setChild hc hg.plan_eq h'

/-- A node grows by a new child, which grew from a node at a path that was claimed for it. -/
theorem Grew.addChild {s₁ : State} {edge : Navigation} (hn : Shaped s.paths parent path asks n)
    (hnew : edge.name ∉ Ask.firstHops asks) (hclaimed : s₁.paths = s.paths ++ [s!"{path}/{edge.name}"])
    (hedge : child.plan.edge = some edge) (hid : child.plan.id = s.paths.length)
    (hg : Grew s₁ (some n.plan.id) s!"{path}/{edge.name}" [] ⟨rest, change⟩ child child' s') :
    Grew s parent path asks ⟨edge.name :: rest, change⟩ n
      { Build.indexed n edge with children := n.children ++ [child'] } s' := by
  have hchild : child'.edge = edge := by rw [Node.edge, hg.plan_eq, hedge]; rfl
  have hunknown : ∀ hops, edge.name :: hops ∈ prefixes (Ask.hopss asks) ↔
      hops ∈ ([] : List (List String)) := fun hops =>
    ⟨fun hin => absurd (Ask.cons_mem_prefixes.mp hin).1 hnew, fun hin => absurd hin List.not_mem_nil⟩
  have hpaths : s'.paths = s.paths ++
      ((edge.name :: rest).inits.removeAll (prefixes (Ask.hopss asks))).map (pathAfter path) := by
    have hmap := congrArg (List.map (pathAfter s!"{path}/{edge.name}")) (inits_eq_cons_removeAll rest)
    rw [hg.paths_eq, hclaimed, removeAll_inits_cons hunknown, List.removeAll_nil, List.append_assoc,
      List.map_map]
    exact congrArg _ hmap.symm
  subst hchild
  refine ⟨hg.named, hpaths, rfl, ?_⟩
  have h' := hg.shaped
  rw [hpaths] at h' ⊢
  refine (hn.indexed child'.edge).addChild hnew ?_ ?_ h'
  · rw [hg.plan_eq, hedge]
  · rw [hg.plan_eq, hid]

/-- **One more ask** adds the nodes that are missing on the way, at paths where there is none, and changes
the request at the end. -/
theorem builds_changeAt (hchange : ∀ r, Safe (change r) fun r' => r'.entity = r.entity)
    {hops : List String} (hslash : SlashFree hops) (hn : Shaped s.paths parent path asks n)
    (hs : s.catalog.Named) (hcovers : Covers s.paths path asks) :
    Builds (changeAt change hops n) s (Grew s parent path asks ⟨hops, change⟩ n) := by
  induction hops generalizing n s path parent asks with
  | nil => exact builds_change hchange hn hs
  | cons hop rest ih =>
    obtain ⟨hhop, hrest⟩ := slashFree_cons.mp hslash
    have hown := hn.own
    rw [changeAt]
    split
    · -- the way goes on over a child
      rename_i i hi
      obtain ⟨hlt, hreached, -⟩ := List.findIdx?_eq_some_iff_getElem.mp hi
      have hget := List.getElem?_eq_getElem hlt
      have hmem := List.mem_of_getElem? hget
      obtain rfl := (reachedBy_iff (hown.edged _ hmem)).mp hreached
      rw [hget]
      exact builds_bind (ih hrest (hn.child hmem) hs (hcovers.child hown hmem hhop)) fun child' s' hg =>
        builds_pure (hg.setChild hn hget)
    · -- the way goes on over no child
      rename_i hnone
      have hnew : hop ∉ Ask.firstHops asks := fun hin => by
        obtain ⟨child, hc, rfl⟩ := hown.mem_names.mpr hin
        have hnot := List.findIdx?_eq_none_iff.mp hnone child hc
        rw [(reachedBy_iff (hown.edged child hc)).mpr rfl] at hnot
        obtain ⟨⟩ := hnot
      obtain rfl := hown.path_eq
      refine builds_bind (builds_newChild hs (hcovers.not_mem hhop hnew (List.forall_mem_nil _))) ?_
      rintro ⟨edge, child⟩ s₁ ⟨hs₁, hp₁, rfl, hedge, hid, hchild⟩
      refine builds_bind (ih hrest hchild hs₁ ?_) fun child' s₂ hg =>
        builds_pure (hg.addChild hn hnew hp₁ hedge hid)
      rw [hp₁]
      exact hcovers.claimed hhop hnew

/-! ## All asks of a query -/

/-- What a predicate asks for. -/
def Ask.ofPredicate (p : Predicate) : Ask :=
  ⟨p.path.hops, fun request => request.addPredicate p.path.field p.operator p.value⟩

/-- What a selected path asks for. -/
def Ask.ofSelected (path : String) : Ask :=
  ⟨(PropertyPath.ofText path).hops, fun request => .ok (request.select (PropertyPath.ofText path).field)⟩

/-- What a query asks for. -/
def Ask.ofQuery (predicates : List Predicate) (selected : List String) : List Ask :=
  predicates.map Ask.ofPredicate ++ selected.map Ask.ofSelected

/-- An ask along a property path, for a change that keeps the entity type or fails without a breach. -/
structure Ask.Sound (a : Ask) : Prop where
  slashFree : SlashFree a.hops
  change : ∀ r, Safe (a.change r) fun r' => r'.entity = r.entity

theorem Ask.sound_ofPredicate (p : Predicate) : (Ask.ofPredicate p).Sound where
  slashFree := slashFree_ofText p.property
  change r := (r.safe_addPredicate _ _ _).imp fun r' hadded => by
    obtain ⟨_, -, rfl⟩ := hadded
    rfl

theorem Ask.sound_ofSelected (path : String) : (Ask.ofSelected path).Sound where
  slashFree := slashFree_ofText path
  change _ := rfl

/-- The whole tree for some asks: its paths are those of the prefixes, in their order. -/
structure Whole (resource : String) (asks : List Ask) (n : Node) (s : State) : Prop where
  named : s.catalog.Named
  paths_eq : s.paths = (prefixes (Ask.hopss asks)).map (pathAfter resource)
  shaped : Shaped s.paths none resource asks n
  sound : ∀ a ∈ asks, a.Sound

variable {resource : String}

theorem slashFree_of_mem_prefixes (h : ∀ a ∈ asks, a.Sound) {hops : List String}
    (hm : hops ∈ prefixes (Ask.hopss asks)) : SlashFree hops := by
  rcases mem_prefixes.mp hm with rfl | ⟨long, hlong, hstem⟩
  · exact List.forall_mem_nil _
  · obtain ⟨a, ha, rfl⟩ := List.mem_map.mp hlong
    exact fun hop hhop => (h a ha).slashFree hop (hstem.subset hhop)

theorem Whole.builds_changeAt (h : Whole resource asks n s) {a : Ask} (ha : a.Sound) :
    Builds (changeAt a.change a.hops n) s (Whole resource (asks ++ [a])) := by
  have hcovers : Covers s.paths resource asks := fun hops hh hin => by
    rw [h.paths_eq] at hin
    obtain ⟨hops', hm, he⟩ := List.mem_map.mp hin
    rwa [← pathAfter_inj (slashFree_of_mem_prefixes h.sound hm) hh he]
  refine (Build.builds_changeAt ha.change ha.slashFree h.shaped h.named hcovers).imp fun n' s' hg =>
    ⟨hg.named, ?_, hg.shaped, ?_⟩
  · rw [hg.paths_eq, Ask.hopss_concat, prefixes_concat, List.map_append, ← h.paths_eq]
  · exact fun b hb => (List.mem_append.mp hb).elim (h.sound b) fun hb => List.mem_singleton.mp hb ▸ ha

/-- Some asks one after the other. -/
theorem Whole.builds_foldlM {γ : Type} {askOf : γ → Ask} (hask : ∀ x, (askOf x).Sound) (todo : List γ)
    (h : Whole resource asks n s) :
    Builds (todo.foldlM (fun n x => changeAt (askOf x).change (askOf x).hops n) n) s
      (Whole resource (asks ++ todo.map askOf)) := by
  induction todo generalizing asks n s with
  | nil =>
    rw [List.map_nil, List.append_nil]
    exact builds_pure h
  | cons x rest ih =>
    rw [List.foldlM_cons, List.map_cons, ← List.singleton_append, ← List.append_assoc]
    exact builds_bind (h.builds_changeAt (hask x)) fun n' s' h' => ih h'

/-- **The tree of a query** is the tree for what the query asks for; building it breaks no rule. -/
theorem builds_tree {catalog : Catalog} (hc : catalog.Named) (resource : String)
    (predicates : List Predicate) (selected : List String) :
    Builds (tree resource predicates selected) ⟨catalog, []⟩
      (Whole resource (Ask.ofQuery predicates selected)) := by
  refine builds_bind (P := fun _ s => s.catalog.Named ∧ s.paths = [])
    (builds_ask (catalog.safe_lookup .resource resource) fun type _ => ⟨?_, rfl⟩) ?_
  · intro entry hentry
    exact hc entry (Catalog.edges_resource catalog resource ▸ hentry)
  · rintro type s ⟨hs, hpaths⟩
    refine builds_bind (builds_newNode (by rw [hpaths]; exact List.not_mem_nil)) ?_
    rintro root s' ⟨hplan, hleaf, hs'⟩
    have hroot : Whole resource [] root s' := by
      rw [hs']
      refine ⟨hs, ?_, shaped_of_new hplan hleaf, List.forall_mem_nil _⟩
      rw [hpaths]
      rfl
    refine builds_bind (hroot.builds_foldlM Ask.sound_ofPredicate predicates) fun root s' hroot => ?_
    exact hroot.builds_foldlM Ask.sound_ofSelected selected

end Build

end PathQuery
