import PathQuery.Proofs.Graph.Run

/-!
# Proofs/Graph/Resume — where a walk is taken up again

    children   open │ open │ open or closed │ closed │ closed
    results     c₀  │  c₁  │                │        │

A walk goes on at the child that the number of kept results says.  Whatever the run, the children in front of
this place are open and those behind it are closed with all nodes below them, and so it is at every node of the
tree (`resumable_of_reached`).
-/

namespace PathQuery

namespace Node

variable {n : Node} {f : Fetcher} {values : Option (List Value)}

/-! ## Closed trees -/

/-- Neither the node nor any node below it has a cursor or kept results. -/
def Closed (n : Node) : Prop := ∀ m ∈ n.all, m.progress.cursor = none ∧ m.progress.childResults = []

theorem closed_iff : n.Closed ↔
    (n.progress.cursor = none ∧ n.progress.childResults = []) ∧ ∀ child ∈ n.children, child.Closed :=
  forall_mem_all

theorem Idle.closed (h : n.Idle) : n.Closed := by
  induction n using Node.induction with
  | node n ih => exact closed_iff.mpr ⟨⟨h.cursor, h.childResults⟩, fun child hc => ih child hc (h.child hc)⟩

/-! ## Places of walks -/

/-- **The place of a node's walk**: a node without a cursor is closed; at any other node the kept results are
those of the first children, which are open, and all children behind the next one are closed. -/
structure Resumable (n : Node) : Prop where
  closed : n.progress.cursor = none → n.Closed
  short : n.progress.cursor ≠ none → n.progress.childResults.length ≤ n.children.length
  opened : n.progress.cursor ≠ none → ∀ (i : Nat) (child : Node), n.children[i]? = some child →
    i < n.progress.childResults.length → child.progress.cursor ≠ none
  behind : n.progress.cursor ≠ none → ∀ (i : Nat) (child : Node), n.children[i]? = some child →
    n.progress.childResults.length < i → child.Closed

theorem Closed.resumable (h : n.Closed) : n.Resumable := by
  have hcur := (closed_iff.mp h).1.1
  exact ⟨fun _ => h, fun hne => absurd hcur hne, fun hne => absurd hcur hne, fun hne => absurd hcur hne⟩

theorem Active.cursor_ne (h : Active f values n) : n.progress.cursor ≠ none := by
  obtain ⟨_, _, _, ho⟩ := h.exists_open
  exact ho.cursor_ne

theorem Active.resumable (h : Active f values n) : n.Resumable where
  closed hcur := absurd hcur h.cursor_ne
  short _ := h.staged.short
  opened _ i child hc hi := by
    obtain ⟨vals, hactive, -⟩ := h.exists_gave hc (List.getElem?_eq_getElem hi)
    exact hactive.cursor_ne
  behind _ i child hc hi := (h.staged.idle i child hi hc).closed

/-- A tree whose root is idle or active has a place for each walk. -/
theorem resumable_of_mem_all (h : n.Idle ∨ Active f values n) : ∀ m ∈ n.all, m.Resumable := by
  induction n using Node.induction generalizing values with
  | node n ih =>
    refine forall_mem_all.mpr ⟨h.elim (fun hi => hi.closed.resumable) Active.resumable, fun child hc => ?_⟩
    rcases h with hi | ha
    · exact ih child hc (Or.inl (hi.child hc) : child.Idle ∨ Active f none child)
    · by_cases hidle : child.Idle
      · exact ih child hc (Or.inl hidle : child.Idle ∨ Active f none child)
      · obtain ⟨i, hget⟩ := List.mem_iff_getElem?.mp hc
        obtain ⟨-, vals, -, hactive⟩ := ha.exists_vals hget hidle
        exact ih child hc (.inr hactive)

end Node

namespace Graph

/-- **Whatever the run**, each node of the tree says where its walk is taken up again. -/
theorem resumable_of_reached {g g₁ : Graph} (hb : g.Built) (hr : g.Reached g₁) :
    ∀ n ∈ g₁.root.all, n.Resumable :=
  Node.resumable_of_mem_all (hr.sound hb.sound).1.state

/-- Two orders with their lines and products: once the root is prepared the second child is behind the place
of the walk, and with the first batch both children are in front of it. -/
theorem resumable_of_reached_lines : ∃ g g₁ g₂ : Graph, g.Built ∧ g.Reached g₁ ∧ g.Reached g₂ ∧
    (∀ n ∈ g₁.root.all, n.Resumable) ∧ (∀ n ∈ g₂.root.all, n.Resumable) ∧
    g₁.root.progress.childResults.length = 0 ∧ g₁.root.children.length = 2 ∧
    g₂.root.progress.childResults.length = 2 := by
  obtain ⟨root, after, g₁, g₂, c, hq, hr, hf, htest⟩ := Shop.exists_first Shop.lines .projection 2
    [⟨"lines/id", .compare .ge, "0"⟩, ⟨"product/id", .compare .ge, "0"⟩] []
    (fun _ g₁ _ g₂ => g₁.root.progress.childResults.length == 0 && g₁.root.children.length == 2 &&
      g₂.root.progress.childResults.length == 2) (by decide +kernel)
  simp only [Bool.and_eq_true, beq_iff_eq] at htest
  obtain ⟨⟨hnone, hchildren⟩, hall⟩ := htest
  have hb : (ofRoot (Shop.registry Shop.lines) .projection 2 root).Built := .ofRoot (.ofConfig _ _) hq _ _ _
  exact ⟨_, g₁, g₂, hb, hr, hr.fetch hf, resumable_of_reached hb hr, resumable_of_reached hb (hr.fetch hf), hnone,
    hchildren, hall⟩

end Graph

end PathQuery
