import PathQuery.Store.Registry

/-!
# Graph/Node — the tree of fetches that a query needs

A node stands for one resource reached from the root by a path of edges.  Its plan says what is fetched
there; its progress holds the documents pulled last, the cursor they come from, and the results of its
children that were kept so far.  A node without cursor is unready; one whose cursor has given its last
document is complete.
-/

namespace PathQuery

/-! ## Nodes -/

/-- What a node fetches, and where it stands in its graph. -/
structure Node.Plan where
  /-- The number of the node in the order of creation. -/
  id : Nat
  /-- The root's resource and the edges after it, with slashes between. -/
  path : String
  /-- The number of the parent, none at the root. -/
  parent : Option Nat
  request : Request
  /-- The edge from the parent, none at the root. -/
  edge : Option Navigation
deriving Repr

/-- How far a node has come. -/
structure Node.Progress where
  /-- The documents pulled last. -/
  results : Collection
  cursor : Option BatchCursor
  /-- The last results of the first children, one collection for each. -/
  childResults : List Collection

/-- A node with the nodes below it. -/
structure Node where
  plan : Node.Plan
  progress : Node.Progress
  children : List Node

/-- Whether a node can be fetched from. -/
inductive Status where
  /-- There is no cursor. -/
  | unready
  /-- The cursor has another document. -/
  | ready
  /-- The cursor has given its last document. -/
  | complete
deriving DecidableEq, Repr

namespace Node

/-- The place of a node, as collections remember it. -/
def Plan.origin (p : Plan) : Origin := ⟨p.id, p.path, p.edge⟩

/-- The resource that a node fetches from. -/
def name (n : Node) : String := n.plan.request.resource

/-- Whether a node is a root. -/
def isRoot (n : Node) : Bool := n.plan.parent.isNone

/-- Whether a node has no children. -/
def isLeaf (n : Node) : Bool := n.children.isEmpty

/-- The state of the node's own cursor. -/
def status (n : Node) : Status :=
  match n.progress.cursor with
  | none => .unready
  | some cursor => if cursor.hasMore then .ready else .complete

/-- The state of a node and its children: a node that is complete counts as ready while the cursor of
a child is not complete. -/
def joinedStatus (n : Node) : Status :=
  if n.status = .complete ∧ n.children.any (·.status ≠ .complete) then .ready else n.status

/-! ## The whole tree -/

mutual

/-- A node and the nodes below it, each before the nodes below it. -/
def all : Node → List Node
  | ⟨plan, progress, children⟩ => ⟨plan, progress, children⟩ :: allOf children

/-- `all` over a list of nodes. -/
def allOf : List Node → List Node
  | [] => []
  | n :: rest => n.all ++ allOf rest

end

mutual

/-- The number of nodes on the longest way down. -/
def height : Node → Nat
  | ⟨_, _, children⟩ => heightOf children + 1

/-- The height of the tallest of some nodes. -/
def heightOf : List Node → Nat
  | [] => 0
  | n :: rest => max n.height (heightOf rest)

end

/-- A name after the names that lead to it. -/
def qualified (outer name : String) : String := if outer = "" then name else s!"{outer}.{name}"

mutual

/-- The selected fields of a node and of the nodes below it, each after the edges that lead to it. -/
def columnsUnder (outer : String) : Node → List String
  | ⟨plan, _, children⟩ =>
    let outer := (plan.edge.map fun edge => qualified outer edge.name).getD outer
    plan.request.selected.map (qualified outer) ++ columnsOf outer children

/-- `columnsUnder` over a list of nodes. -/
def columnsOf (outer : String) : List Node → List String
  | [] => []
  | n :: rest => columnsUnder outer n ++ columnsOf outer rest

end

/-- The selected fields at a node and below it. -/
def columns (n : Node) : List String := columnsUnder "" n

mutual

/-- Gives up the cursor and the kept results of a node and of all nodes below it. -/
def reset : Node → Node
  | ⟨plan, progress, children⟩ =>
    ⟨plan, { progress with cursor := none, childResults := [] }, resetOf children⟩

/-- `reset` over a list of nodes. -/
def resetOf : List Node → List Node
  | [] => []
  | n :: rest => n.reset :: resetOf rest

end

/-- Gives up the results kept from the children, and all that the children have. -/
def resetChildren (n : Node) : Node :=
  { n with
    progress := { n.progress with childResults := [] }
    children := resetOf n.children }

mutual

/-- Applies an action at the node of a path. -/
def visit (path : String) (action : Node → α × Node) : Node → Option (α × Node)
  | ⟨plan, progress, children⟩ =>
    if plan.path = path then some (action ⟨plan, progress, children⟩)
    else (visitOf path action children).map fun (a, children) => (a, ⟨plan, progress, children⟩)

/-- `visit` over a list of nodes, at the first that has the path. -/
def visitOf (path : String) (action : Node → α × Node) : List Node → Option (α × List Node)
  | [] => none
  | n :: rest =>
    match visit path action n with
    | some (a, n) => some (a, n :: rest)
    | none => (visitOf path action rest).map fun (a, rest) => (a, n :: rest)

end

/-! ## Changing one node -/

/-- Puts a node in the place of a child. -/
def setChild (n : Node) (i : Nat) (child : Node) : Node :=
  { n with children := n.children.set i child }

/-- Forgets the results of the children from a position on. -/
def keepBefore (n : Node) (i : Nat) : Node :=
  { n with progress := { n.progress with childResults := n.progress.childResults.take i } }

/-- Keeps the results of the child at a position as the last ones. -/
def keepResults (n : Node) (i : Nat) (results : Collection) : Node :=
  { n with progress := { n.progress with
      childResults := n.progress.childResults.take i ++ [results] } }

/-! ## Small facts -/

theorem allOf_eq (ns : List Node) : allOf ns = ns.flatMap all := by
  induction ns with
  | nil => rfl
  | cons n rest ih => simp [allOf, ih]

theorem resetOf_eq (ns : List Node) : resetOf ns = ns.map reset := by
  induction ns with
  | nil => rfl
  | cons n rest ih => simp [resetOf, ih]

theorem columnsOf_eq (outer : String) (ns : List Node) :
    columnsOf outer ns = ns.flatMap (columnsUnder outer) := by
  induction ns with
  | nil => rfl
  | cons n rest ih => simp [columnsOf, ih]

/-- A node stands first among itself and the nodes below it. -/
theorem all_eq (n : Node) : n.all = n :: n.children.flatMap all := by
  obtain ⟨plan, progress, children⟩ := n
  simp [all, allOf_eq]

theorem height_eq (n : Node) : n.height = heightOf n.children + 1 := by
  obtain ⟨plan, progress, children⟩ := n
  rfl

/-- A child is lower than its parent. -/
theorem height_lt_of_mem {n child : Node} (h : child ∈ n.children) : child.height < n.height := by
  rw [height_eq n]
  have : ∀ ns : List Node, child ∈ ns → child.height ≤ heightOf ns := by
    intro ns hm
    induction ns with
    | nil => cases hm
    | cons n rest ih =>
      simp only [heightOf]
      rcases List.mem_cons.1 hm with rfl | hm
      · exact Nat.le_max_left _ _
      · exact Nat.le_trans (ih hm) (Nat.le_max_right _ _)
  exact Nat.lt_succ_of_le (this _ h)

@[simp] theorem plan_reset (n : Node) : n.reset.plan = n.plan := by cases n; rfl

/-- The children of a node that was reset are reset. -/
theorem children_reset (n : Node) : n.reset.children = n.children.map reset := by
  cases n; simp [reset, resetOf_eq]

/-- A node that was reset is unready. -/
@[simp] theorem status_reset (n : Node) : n.reset.status = .unready := by cases n; rfl

end Node

end PathQuery
