import PathQuery.Proofs.Graph.Inherit
import PathQuery.Proofs.Graph.Total

/-!
# Proofs/Graph/Unselected — selected fields only cut down what a root gives

A tree in which no field is selected makes the same run, step by step: it opens the same cursors, pulls the
same batches and combines the same results, and only the rows that the root gives are whole
(`fetchWithin_unselected`, `Graph.Reached.unselected`).  Below the root nothing is cut down, so what children
give is the same.
-/

namespace PathQuery

namespace Node

/-! ## Trees in which no field is selected -/

/-- A plan that selects no field. -/
def Plan.unselected (p : Plan) : Plan := { p with request := { p.request with selected := [] } }

mutual

/-- The tree in which no field is selected. -/
def unselected : Node → Node
  | ⟨plan, progress, children⟩ => ⟨plan.unselected, progress, unselectedOf children⟩

/-- `unselected` over a list of nodes. -/
def unselectedOf : List Node → List Node
  | [] => []
  | n :: rest => n.unselected :: unselectedOf rest

end

variable {n child : Node} {r : Registry}

theorem unselected_eq (n : Node) :
    n.unselected = ⟨n.plan.unselected, n.progress, n.children.map unselected⟩ := by
  have hof : ∀ ns : List Node, unselectedOf ns = ns.map unselected := by
    intro ns
    induction ns with
    | nil => rfl
    | cons n rest ih => rw [unselectedOf, ih, List.map_cons]
  obtain ⟨plan, progress, children⟩ := n
  rw [unselected, hof]

@[simp] theorem plan_unselected (n : Node) : n.unselected.plan = n.plan.unselected := by rw [unselected_eq]

@[simp] theorem progress_unselected (n : Node) : n.unselected.progress = n.progress := by rw [unselected_eq]

@[simp] theorem children_unselected (n : Node) : n.unselected.children = n.children.map unselected := by
  rw [unselected_eq]

@[simp] theorem name_unselected (n : Node) : n.unselected.name = n.name := by
  rw [name, plan_unselected]
  rfl

@[simp] theorem isRoot_unselected (n : Node) : n.unselected.isRoot = n.isRoot := by
  rw [isRoot, plan_unselected]
  rfl

@[simp] theorem edge_unselected (n : Node) : n.unselected.edge = n.edge := by
  rw [edge, plan_unselected]
  rfl

@[simp] theorem isLeaf_unselected (n : Node) : n.unselected.isLeaf = n.isLeaf := by
  rw [isLeaf, children_unselected, List.isEmpty_map]
  rfl

@[simp] theorem status_unselected (n : Node) : n.unselected.status = n.status := by
  rw [status, progress_unselected]
  rfl

@[simp] theorem joinedStatus_unselected (n : Node) : n.unselected.joinedStatus = n.joinedStatus := by
  rw [joinedStatus, joinedStatus, status_unselected, children_unselected, List.any_map]
  simp only [Function.comp_def, status_unselected]

theorem all_unselected (n : Node) : n.unselected.all = n.all.map unselected := by
  induction n using Node.induction with
  | node n ih =>
    rw [all_eq, all_eq, children_unselected, List.flatMap_map, List.map_cons, List.map_flatMap]
    exact congrArg _ (List.flatMap_congr ih)

theorem forall_mem_all_unselected {Q : Node → Prop} :
    (∀ m ∈ n.unselected.all, Q m) ↔ ∀ m ∈ n.all, Q m.unselected := by
  rw [all_unselected, List.forall_mem_map]

theorem unselected_unselected (n : Node) : Build.Unselected n.unselected :=
  forall_mem_all_unselected.mpr fun m _ => by rw [plan_unselected]; rfl

theorem columns_unselected (n : Node) : n.unselected.columns = [] := (unselected_unselected n).columns

theorem reset_unselected (n : Node) : n.unselected.reset = n.reset.unselected := by
  induction n using Node.induction with
  | node n ih =>
    obtain ⟨plan, progress, children⟩ := n
    rw [unselected_eq, reset, resetOf_eq, reset, resetOf_eq, unselected_eq, List.map_map, List.map_map]
    exact congrArg _ (List.map_congr_left ih)

theorem setChild_unselected (n : Node) (i : Nat) (child : Node) :
    n.unselected.setChild i child.unselected = (n.setChild i child).unselected := by
  rw [unselected_eq n, unselected_eq (n.setChild i child), setChild, setChild, List.map_set]

theorem withProgress_unselected (n : Node) (progress : Progress) :
    { n.unselected with progress } = Node.unselected { n with progress } := by
  rw [unselected_eq, unselected_eq]

theorem keepBefore_unselected (n : Node) (i : Nat) : n.unselected.keepBefore i = (n.keepBefore i).unselected := by
  rw [unselected_eq, unselected_eq]
  rfl

theorem keepResults_unselected (n : Node) (i : Nat) (c : Collection) :
    n.unselected.keepResults i c = (n.keepResults i c).unselected := by
  rw [unselected_eq, unselected_eq]
  rfl

theorem resetChildren_unselected (n : Node) : n.unselected.resetChildren = n.resetChildren.unselected := by
  rw [unselected_eq, unselected_eq, resetChildren, resetChildren, resetOf_eq, resetOf_eq, List.map_map,
    List.map_map]
  exact congrArg _ (List.map_congr_left fun child _ => reset_unselected child)

/-- What a tree is built as does not depend on selected fields. -/
theorem Formed.unselected (h : n.Formed) : n.unselected.Formed := by
  induction h with
  | @node n laid joint distinct _ ih =>
    rw [unselected_eq]
    refine .node ⟨laid.origin, laid.wellLaid, laid.key⟩ ?_ ?_ ?_
    · rw [List.forall_mem_map]
      intro child hc
      obtain ⟨edge, hj⟩ := joint child hc
      refine ⟨edge, ⟨?_, (isRoot_unselected child).trans hj.inner, hj.host, ?_⟩⟩
      · rw [plan_unselected]
        exact hj.edge_eq
      · rw [progress_unselected]
        exact hj.related
    · rw [List.pairwise_map]
      exact distinct.imp fun h e f he hf =>
        h e f (by rwa [plan_unselected] at he) (by rwa [plan_unselected] at hf)
    · rw [List.forall_mem_map]
      exact ih

theorem height_unselected (n : Node) : n.unselected.height = n.height := by
  induction n using Node.induction with
  | node n ih =>
    have hof : ∀ ns : List Node, (∀ child ∈ ns, child.unselected.height = child.height) →
        heightOf (ns.map Node.unselected) = heightOf ns := by
      intro ns
      induction ns with
      | nil => exact fun _ => rfl
      | cons child rest ihr =>
        intro hall
        rw [List.map_cons, heightOf, heightOf, hall child (.head _), ihr fun k hk => hall k (.tail _ hk)]
    rw [height_eq, height_eq, children_unselected, hof _ ih]

theorem Idle.unselected (h : n.Idle) : n.unselected.Idle := by
  rw [Idle, reset_unselected, h]

theorem turns_unselected (r : Registry) (n : Node) : turns r n.unselected = turns r n := by
  induction n using Node.induction with
  | node n ih =>
    have hof : ∀ ns : List Node, (∀ child ∈ ns, turns r child.unselected = turns r child) →
        steps r (ns.map Node.unselected) = steps r ns := by
      intro ns
      induction ns with
      | nil => exact fun _ => rfl
      | cons child rest ihr =>
        intro hall
        rw [List.map_cons, steps, steps, hall child (.head _), ihr fun k hk => hall k (.tail _ hk)]
    rw [turns_eq, turns_eq, plan_unselected, children_unselected, hof _ ih]
    rfl

/-! ## Nodes below a root -/

/-- No node of a tree is a root. -/
def Rootless (n : Node) : Prop := ∀ m ∈ n.all, m.isRoot = false

/-- No node below the first is a root. -/
def RootlessBelow (n : Node) : Prop := ∀ child ∈ n.children, child.Rootless

theorem rootless_iff : n.Rootless ↔ n.isRoot = false ∧ n.RootlessBelow := forall_mem_all

theorem Formed.rootlessBelow (h : n.Formed) : n.RootlessBelow := by
  induction h with
  | node _ joint _ _ ih =>
    intro child hc
    obtain ⟨edge, hj⟩ := joint child hc
    exact rootless_iff.mpr ⟨hj.inner, ih child hc⟩

theorem Rootless.reset (h : n.Rootless) : n.reset.Rootless := by
  induction n using Node.induction with
  | node n ih =>
    obtain ⟨hroot, hbelow⟩ := rootless_iff.mp h
    refine rootless_iff.mpr ⟨?_, fun child hc => ?_⟩
    · rwa [isRoot, plan_reset]
    · rw [children_reset] at hc
      obtain ⟨k, hk, rfl⟩ := List.mem_map.mp hc
      exact ih k hk (hbelow k hk)

theorem RootlessBelow.setChild (h : n.RootlessBelow) {i : Nat} (hc : child.Rootless) :
    (n.setChild i child).RootlessBelow := fun k hk =>
  (List.mem_or_eq_of_mem_set hk).elim (h k) fun he => he ▸ hc

theorem RootlessBelow.resetChildren (h : n.RootlessBelow) : n.resetChildren.RootlessBelow := by
  intro child hc
  rw [Node.resetChildren, resetOf_eq] at hc
  obtain ⟨k, hk, rfl⟩ := List.mem_map.mp hc
  exact (h k hk).reset

theorem RootlessBelow.reset (h : n.RootlessBelow) : n.reset.RootlessBelow := by
  intro child hc
  rw [children_reset] at hc
  obtain ⟨k, hk, rfl⟩ := List.mem_map.mp hc
  exact (h k hk).reset

end Node

/-! ## Cutting down -/

namespace Projection

/-- Cutting down keeps the wanted columns of each row, in their order, and does not fail. -/
theorem exists_cut (origin : Origin) (wanted : List String) (c : Collection) :
    ∃ d, cut origin wanted c = .ok d ∧
      d.rows = if wanted = [] then c.rows else c.rows.map fun row => row.keep wanted.contains := by
  rw [cut]
  split
  · rename_i hw
    exact ⟨c, rfl, (if_pos (List.isEmpty_iff.mp hw)).symm⟩
  · rename_i hw
    have hempty := listed_of_slots_eq_nil (Collection.bare_empty (some origin)).valid rfl rfl
    obtain ⟨d, hd⟩ : ∃ d, addRows (Collection.empty (some origin))
        (c.rows.map fun row => row.keep wanted.contains) = .ok d :=
      exists_addRows hempty fun row _ field hf => by rcases hf with hf | hf <;> obtain ⟨⟩ := hf
    refine ⟨d, hd, ?_⟩
    rw [if_neg (List.isEmpty_iff.not.mp hw), (hempty.addRows hd).2.2]
    rfl

/-- A combination is cut down once it is made. -/
theorem combine_eq_bind (origin : Origin) (wanted : List String) (results : Collection)
    (children : List Collection) :
    combine origin wanted results children = combine origin [] results children >>= cut origin wanted := by
  rw [combine, combine]
  cases children.getLast? with
  | none => rfl
  | some last => simp only [bind_assoc]; rfl

end Projection

/-- What a node gives of what it combined. -/
def Combination.strip (c : Combination) (n : Node) : Outcome → Except Failure Outcome
  | .batch d =>
    match c with
    | .expand => .ok (.batch d)
    | .projection => (Projection.cut n.plan.origin (if n.isRoot then n.columns else []) d).map .batch
  | o => .ok o

namespace Combination

variable {c : Combination} {n : Node}

/-- Below the root everything is given. -/
theorem strip_of_not_isRoot (h : n.isRoot = false) (o : Outcome) : c.strip n o = .ok o := by
  cases o with
  | batch d =>
    cases c with
    | expand => rfl
    | projection => rw [strip, h]; rfl
  | _ => rfl

/-- A node combines what it does without selected fields, and gives a part of it. -/
theorem combine_eq_strip (c : Combination) (n : Node) (results : Collection) (children : List Collection) :
    (c.combine n results children).map .batch =
      (c.combine n.unselected results children).map .batch >>= c.strip n := by
  cases c with
  | expand =>
    rw [combine, combine]
    cases Expand.combine results children <;> rfl
  | projection =>
    have horigin : n.unselected.plan.origin = n.plan.origin := by rw [Node.plan_unselected]; rfl
    simp only [combine, Node.columns_unselected, ite_self, horigin]
    rw [Projection.combine_eq_bind]
    cases Projection.combine n.plan.origin [] results children <;> rfl

end Combination

/-! ## Fetching -/

namespace Fetcher

open Node

variable {f : Fetcher} {fetch : Node → Except Failure Outcome × Node} {n child : Node} {i : Nat}

/-- What an action comes to in a tree in which no field is selected. -/
def ofUnselected {α : Type} (p : α × Node) : α × Node := (p.1, p.2.unselected)

theorem fetchBatches_unselected (r : Registry) (n : Node) (values : Option (List Value)) (size : Nat) :
    r.fetchBatches (requestFor n.unselected values) size = r.fetchBatches (requestFor n values) size := by
  rw [unselected_eq]
  obtain ⟨⟨_, _, _, _, edge⟩, _, _⟩ := n
  cases edge <;> cases values <;> rfl

theorem openCursor_unselected (f : Fetcher) (values : Option (List Value)) (n : Node) :
    f.openCursor values n.unselected = ofUnselected (f.openCursor values n) := by
  rw [openCursor, openCursor, status_unselected, name_unselected, fetchBatches_unselected,
    isLeaf_unselected, progress_unselected]
  split
  · rfl
  · cases f.registry.fetchBatches (requestFor n values) f.batchSize with
    | error e => rfl
    | ok cursor =>
      dsimp only
      split
      · exact congrArg _ (withProgress_unselected n _)
      · generalize cursor.nextBatch n.progress.results.purge = next
        obtain ⟨_ | _, _, _⟩ := next <;> exact congrArg _ (withProgress_unselected n _)

/-- Opening a node keeps its plan and its children. -/
theorem plan_openCursor (f : Fetcher) (values : Option (List Value)) (n : Node) :
    (f.openCursor values n).2.plan = n.plan ∧ (f.openCursor values n).2.children = n.children :=
  openCursor_rule (fun _ => ⟨rfl, rfl⟩) (fun _ _ _ => ⟨rfl, rfl⟩) (fun _ _ _ _ => ⟨rfl, rfl⟩)
    (fun _ _ _ _ _ _ _ _ => ⟨rfl, rfl⟩) fun _ _ _ _ _ _ _ _ => ⟨rfl, rfl⟩

theorem valuesFor_unselected (n : Node) (i : Nat) (child : Node) :
    valuesFor n.unselected i child.unselected = valuesFor n i child := by
  rw [valuesFor, valuesFor, plan_unselected, progress_unselected, name_unselected]
  rfl

theorem pull_unselected (n : Node) (b : BatchCursor) :
    pull n.unselected b = ofUnselected (pull n b) := by
  rw [pull, pull, progress_unselected]
  exact congrArg _ (withProgress_unselected n _)

theorem start_unselected (n : Node) : start n.unselected = start n := by
  rw [start, start, progress_unselected, children_unselected, List.length_map]

theorem advance_unselected (n : Node) (b : BatchCursor) :
    advance n.unselected b = ofUnselected (advance n b) := by
  rw [advance, advance, pull_unselected]
  split
  · generalize pull n b = pulled
    obtain ⟨_ | _, m⟩ := pulled
    · rfl
    · exact congrArg _ (resetChildren_unselected m)
  · exact congrArg _ (reset_unselected n)

/-- What a fetch comes to: with selected fields, a part of what it comes to without them. -/
structure Strips (f : Fetcher) (n : Node) (p q : Except Failure Outcome × Node) : Prop where
  node : q.2 = p.2.unselected
  outcome : p.1 = q.1 >>= f.combination.strip p.2
  plan : p.2.plan = n.plan
  below : p.2.RootlessBelow

/-- An outcome that is no batch is the same. -/
theorem strips_of_eq {p : Except Failure Outcome × Node} (ho : ∀ d, p.1 ≠ .ok (.batch d))
    (hp : p.2.plan = n.plan) (hb : p.2.RootlessBelow) : Strips f n p (ofUnselected p) := by
  refine ⟨rfl, ?_, hp, hb⟩
  obtain ⟨e | o, m⟩ := p
  · rfl
  · cases o with
    | batch d => exact absurd rfl (ho d)
    | _ => rfl

theorem rootless_pull {m : Node} {b : BatchCursor} {e : Except Failure Nat} (hb : n.RootlessBelow)
    (h : pull n b = (e, m)) : m.plan = n.plan ∧ m.RootlessBelow := by
  cases h
  exact ⟨rfl, hb⟩

theorem strips_fetchLeaf (hb : n.RootlessBelow) (b : BatchCursor) :
    Strips f n (f.fetchLeaf n b) (f.fetchLeaf n.unselected b) := by
  rw [fetchLeaf, fetchLeaf, pull_unselected]
  split
  · have hplan : (pull n b).2.plan = n.plan := rfl
    have hbelow : (pull n b).2.RootlessBelow := hb
    generalize pull n b = pulled at hplan hbelow
    obtain ⟨_ | _, m⟩ := pulled
    · exact strips_of_eq (by rintro _ ⟨⟩) hplan hbelow
    · dsimp only [ofUnselected]
      rw [progress_unselected, isRoot_unselected]
      split
      · exact strips_of_eq (by rintro _ ⟨⟩) hplan hbelow
      · split
        · exact ⟨rfl, Combination.combine_eq_strip _ _ _ _, hplan, hbelow⟩
        · rename_i hroot
          exact ⟨rfl, (Combination.strip_of_not_isRoot (Bool.not_eq_true _ ▸ hroot) _).symm, hplan, hbelow⟩
  · exact strips_of_eq (by rintro _ ⟨⟩) rfl hb

theorem strips_advance {m : Node} (hp : m.plan = n.plan) (hb : m.RootlessBelow) (b : BatchCursor) :
    Strips f n (advance m b) (advance m.unselected b) := by
  rw [advance_unselected]
  refine advance_rule (fun _ => ?_) (fun e k _ hpull => ?_) fun moved k _ hpull => ?_
  · exact strips_of_eq (by rintro _ ⟨⟩) ((plan_reset m).trans hp) hb.reset
  · obtain ⟨hplan, hbelow⟩ := rootless_pull hb hpull
    exact strips_of_eq (by rintro _ ⟨⟩) (hplan.trans hp) hbelow
  · obtain ⟨hplan, hbelow⟩ := rootless_pull hb hpull
    exact strips_of_eq (by rintro _ ⟨⟩) (hplan.trans hp) hbelow.resetChildren

/-! ## Walks -/

/-- A way of fetching that is the same below a root. -/
def SameBelow (fetch : Node → Except Failure Outcome × Node) : Prop :=
  ∀ child, child.Rootless → fetch child.unselected = ofUnselected (fetch child) ∧ (fetch child).2.Rootless

theorem turn_unselected (f : Fetcher) (hfetch : SameBelow fetch) (hc : child.Rootless) (n : Node) (i : Nat) :
    f.turn fetch n.unselected i child.unselected = ofUnselected (f.turn fetch n i child) ∧
      (f.turn fetch n i child).2.Rootless := by
  rw [turn, turn, joinedStatus_unselected, valuesFor_unselected]
  split
  · exact ⟨rfl, hc⟩
  · exact hfetch child hc
  · cases valuesFor n i child with
    | error e => exact ⟨rfl, hc⟩
    | ok values =>
      dsimp only
      rw [openCursor_unselected]
      obtain ⟨hplan, hchildren⟩ := plan_openCursor f (some values) child
      generalize f.openCursor (some values) child = opened at hplan hchildren
      obtain ⟨r, m⟩ := opened
      dsimp only at hplan hchildren
      have hm : m.Rootless := by
        obtain ⟨hroot, hbelow⟩ := rootless_iff.mp hc
        rw [rootless_iff, RootlessBelow, isRoot, hplan, hchildren]
        exact ⟨hroot, hbelow⟩
      cases r with
      | error e => exact ⟨rfl, hm⟩
      | ok _ => exact hfetch m hm

theorem walk_unselected (f : Fetcher) (hfetch : SameBelow fetch) (steps i : Nat) (hb : n.RootlessBelow) :
    f.walk fetch steps i n.unselected = ofUnselected (f.walk fetch steps i n) ∧
      (f.walk fetch steps i n).2.plan = n.plan ∧ (f.walk fetch steps i n).2.RootlessBelow := by
  induction steps generalizing n i with
  | zero => exact ⟨rfl, rfl, hb⟩
  | succ steps ih =>
    rw [walk, walk, children_unselected, List.getElem?_map]
    cases hc : n.children[i]? with
    | none => exact ⟨rfl, rfl, hb⟩
    | some child =>
      obtain ⟨hturn, hinner⟩ := turn_unselected f hfetch (hb child (List.mem_of_getElem? hc)) n i
      dsimp only [Option.map_some]
      rw [hturn]
      generalize f.turn fetch n i child = turned at hinner
      obtain ⟨e | o, child'⟩ := turned
      · exact ⟨congrArg _ (setChild_unselected n i child'), rfl, hb.setChild hinner⟩
      · cases o with
        | unfinished => exact ⟨congrArg _ (setChild_unselected n i child'), rfl, hb.setChild hinner⟩
        | pending =>
          dsimp only [ofUnselected]
          rw [setChild_unselected, keepBefore_unselected]
          exact ⟨rfl, rfl, hb.setChild hinner⟩
        | batch c =>
          dsimp only [ofUnselected]
          rw [setChild_unselected, keepResults_unselected]
          exact ih (n := (n.setChild i child').keepResults i c) (i + 1) (hb.setChild hinner)
        | exhausted =>
          dsimp only [ofUnselected]
          rw [reset_unselected, setChild_unselected, keepBefore_unselected]
          cases i with
          | zero => exact ⟨rfl, rfl, hb.setChild hinner.reset⟩
          | succ i =>
            exact ih (n := (n.setChild (i + 1) child'.reset).keepBefore (i + 1)) i (hb.setChild hinner.reset)

/-- **A fetch without selected fields** comes to the same, and gives whole rows. -/
theorem strips_fetchWithin (f : Fetcher) (height : Nat) (hb : n.RootlessBelow) :
    Strips f n (f.fetchWithin height n) (f.fetchWithin height n.unselected) := by
  induction height generalizing n with
  | zero => exact strips_of_eq (by rintro _ ⟨⟩) rfl hb
  | succ height ih =>
    rw [fetchWithin, fetchWithin, progress_unselected, name_unselected, isLeaf_unselected, start_unselected]
    cases n.progress.cursor with
    | none => exact strips_of_eq (by rintro _ ⟨⟩) rfl hb
    | some b =>
      dsimp only
      split
      · exact strips_fetchLeaf hb b
      · have hbelow : SameBelow (f.fetchWithin height) := fun child hc => by
          obtain ⟨hroot, hcb⟩ := rootless_iff.mp hc
          obtain ⟨hnode, hout, hplan, hbelow⟩ := ih hcb
          have hinner : (f.fetchWithin height child).2.isRoot = false := by rw [isRoot, hplan]; exact hroot
          rw [funext (Combination.strip_of_not_isRoot hinner)] at hout
          exact ⟨Prod.ext (hout.trans (bind_pure _)).symm hnode, rootless_iff.mpr ⟨hinner, hbelow⟩⟩
        obtain ⟨hwalk, hplan, hwb⟩ := walk_unselected f hbelow f.steps (start n) hb
        rw [hwalk]
        generalize f.walk (f.fetchWithin height) f.steps (start n) n = walked at hplan hwb
        obtain ⟨e | e, m⟩ := walked
        · exact strips_of_eq (by rintro _ ⟨⟩) hplan hwb
        · cases e with
          | unfinished => exact strips_of_eq (by rintro _ ⟨⟩) hplan hwb
          | pending => exact strips_of_eq (by rintro _ ⟨⟩) hplan hwb
          | joined =>
            dsimp only [ofUnselected]
            rw [progress_unselected]
            exact ⟨rfl, Combination.combine_eq_strip _ _ _ _, hplan, hwb⟩
          | exhausted =>
            exact strips_advance hplan hwb b

end Fetcher

/-! ## Runs -/

namespace Graph

open Node

/-- The graph in which no field is selected. -/
def unselected (g : Graph) : Graph := { g with root := g.root.unselected }

variable {g g₁ g₂ : Graph} {o : Outcome}

/-- A graph as it is built stays one. -/
theorem Sound.unselected (h : g.Sound) (hi : g.root.Idle) : g.unselected.Sound where
  formed := h.formed.unselected
  isRoot := (isRoot_unselected _).trans h.isRoot
  edge := by
    rw [Graph.unselected, plan_unselected]
    exact h.edge
  enough := (Nat.le_of_eq (turns_unselected _ _)).trans h.enough
  state := .inl hi.unselected

theorem prepareRoot_unselected (g : Graph) :
    g.unselected.prepareRoot = ((g.prepareRoot).1, (g.prepareRoot).2.unselected) := by
  rw [prepareRoot, prepareRoot, atRoot, atRoot]
  exact congrArg (fun p : Except Failure Unit × Node => (p.1, ({ g with root := p.2 } : Graph)))
    (Fetcher.openCursor_unselected g.fetcher none g.root)

theorem reset_unselected (g : Graph) : g.unselected.reset = g.reset.unselected :=
  congrArg (fun root => ({ g with root } : Graph)) (Node.reset_unselected g.root)

/-- A fetch without selected fields gives what is cut down to what the fetch gives. -/
theorem exists_fetch_unselected (hb : g.root.RootlessBelow) (hf : g.fetch = (.ok o, g₁)) :
    ∃ u, g.unselected.fetch = (.ok u, g₁.unselected) ∧ g.fetcher.combination.strip g₁.root u = .ok o := by
  have hs := Fetcher.strips_fetchWithin g.fetcher g.root.height hb
  rw [fetch, atRoot, Fetcher.fetch] at hf
  rw [fetch, atRoot, Fetcher.fetch, Graph.unselected, height_unselected]
  generalize g.fetcher.fetchWithin g.root.height g.root = p at hs hf
  generalize g.fetcher.fetchWithin g.root.height g.root.unselected = q at hs ⊢
  obtain ⟨r, n⟩ := p
  obtain ⟨r', n'⟩ := q
  cases hf
  obtain rfl := hs.node
  obtain ⟨u, rfl, hu⟩ := bind_eq_ok.mp hs.outcome.symm
  exact ⟨u, rfl, hu⟩

/-- **The same run without selected fields.** -/
theorem Reached.unselected (h : g.Reached g₁) (hs : g.Sound) : g.unselected.Reached g₁.unselected := by
  induction h with
  | refl => exact .refl
  | prepareRoot _ hp ih => exact ih.prepareRoot (by rw [prepareRoot_unselected, hp])
  | fetch hr hf ih =>
    obtain ⟨u, hu, -⟩ := exists_fetch_unselected (hr.sound hs).1.formed.rootlessBelow hf
    exact ih.fetch hu
  | reset _ ih => exact reset_unselected _ ▸ ih.reset

/-- **The rows of a batch are those of the same run without selected fields**, cut down to the columns of the
root. -/
theorem exists_batch_unselected {c : Collection} (hs : g.Sound) (hr : g.Reached g₁)
    (hp : g.fetcher.combination = .projection) (hf : g₁.fetch = (.ok (.batch c), g₂)) :
    ∃ u, g₁.unselected.fetch = (.ok (.batch u), g₂.unselected) ∧
      c.rows = if g.root.columns = [] then u.rows else u.rows.map fun row => row.keep g.root.columns.contains := by
  obtain ⟨hs₁, hfet, hal⟩ := hr.sound hs
  obtain ⟨-, -, hal', -⟩ := hs₁.fetch hf
  obtain ⟨u, hu, hstrip⟩ := exists_fetch_unselected hs₁.formed.rootlessBelow hf
  rw [hfet, hp] at hstrip
  have hroot : g₂.root.isRoot = true := hal'.isRoot_eq.trans hs₁.isRoot
  cases u with
  | batch d =>
    obtain ⟨c', hcut, hc⟩ := map_eq_ok.mp hstrip
    cases hc
    rw [if_pos hroot] at hcut
    obtain ⟨k, hk, hrows⟩ := Projection.exists_cut g₂.root.plan.origin g₂.root.columns d
    cases hk.symm.trans hcut
    rw [(hal'.trans hal).columns_eq] at hrows
    exact ⟨d, hu, hrows⟩
  | _ => obtain ⟨⟩ := hstrip

end Graph

end PathQuery
